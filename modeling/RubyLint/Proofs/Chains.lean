import Mathlib.Data.List.Sort
import Mathlib.Logic.Relation
import RubyLint.Proofs.Numbering
import RubyLint.Rule.Constants

/-!
# Chains of constants

`A::B::C` is a chain of three uses, the whole of it on top and `A` at its left end. In the outline of a
file a chain takes consecutive numbers, so chains never share a node and come in the same order by
their tops as by their left ends. The rule on prefixes looks at single nodes; it finds exactly the
chains that start with a bare name.

* `Outline.Linked`, `linked_ofItem`: how the links of an outline fit its numbers.
* `Outline.IsChain`: a chain from its top to its left end.
* `Linked.isChain_chainTop`, `Linked.top_unique`: climbing from a left end finds the top.
* `Linked.lt_top_of_lt`: chains come one after the other.
* `ConstantPrefix.check_eq_map_chains`: **one violation for each offending chain, and no other.**
-/

namespace RubyLint

namespace Outline

open Item

variable {o : Outline} {id p s top top' left left' : Nat}

/-- The links of an outline fit its numbers: parents come first, what qualifies a use is its first
child, and a traversal takes the numbers in order. -/
structure Linked (o : Outline) : Prop where
  parent_lt : ∀ id p, o.parent? id = some p → p < id
  scope_next : ∀ id s, o.scope? id = some s → s = id + 1 ∧ o.parent? s = some id
  preorder_eq : o.preorder = List.range o.size

theorem scope?_eq_some_iff :
    o.scope? id = some s ↔ ∃ name rooted, o.role id = .reference name (some s) rooted := by
  unfold scope?
  constructor
  · intro h
    split at h
    · rename_i name scope rooted hrole; subst h; exact ⟨name, rooted, hrole⟩
    · cases h
  · rintro ⟨name, rooted, h⟩; rw [h]

theorem isReference_of_scope? (h : o.scope? id = some s) : o.isReference id = true := by
  obtain ⟨name, rooted, hrole⟩ := scope?_eq_some_iff.1 h
  unfold isReference; rw [hrole]

theorem lt_size_of_role (h : o.role id ≠ .other) : id < o.size := by
  by_contra hge
  have hnone : o.nodes[id]? = none := Array.getElem?_eq_none (Nat.le_of_not_lt hge)
  exact h (by unfold role; rw [hnone]; rfl)

theorem lt_size_of_parent? (h : o.parent? id = some p) : id < o.size := by
  by_contra hge
  have hnone : o.nodes[id]? = none := Array.getElem?_eq_none (Nat.le_of_not_lt hge)
  unfold parent? at h; rw [hnone] at h; cases h

theorem linked_ofItem (t : Item) : (ofItem t).Linked where
  parent_lt := by
    intro id p hp
    obtain ⟨parent, item, -, hholds, hlt⟩ := exists_holds t (lt_size_of_parent? hp)
    rw [hholds.parent?_eq] at hp
    exact hlt p hp
  scope_next := by
    intro id s hs
    obtain ⟨name, rooted, hrole⟩ := scope?_eq_some_iff.1 hs
    have hsize : id < (ofItem t).size := lt_size_of_role (by rw [hrole]; simp)
    obtain ⟨parent, item, -, hholds, -⟩ := exists_holds t hsize
    rw [hholds.role_eq] at hrole
    obtain ⟨label, span, children⟩ := item
    -- only a use of a constant has this role, and its first child is the next number
    cases label with
    | reference =>
      cases children with
      | nil => cases hrole
      | cons c cs => cases hrole; exact ⟨rfl, hholds.inner.head.parent?_eq⟩
    | _ => cases hrole
  preorder_eq := preorder_ofItem t

/-- A step down a chain: `b` qualifies `a`. -/
def Link (o : Outline) (a b : Nat) : Prop :=
  o.scope? a = some b

/-- **A chain of constants** from its top down to its left end: a use that does not itself qualify
another one, followed down to where nothing qualifies it any more. In `foo::Bar` this is what `foo`
is, which is no use of a constant. -/
structure IsChain (o : Outline) (top left : Nat) : Prop where
  reference : o.isReference top = true
  maximal : ∀ p, o.parent? top = some p → o.scope? p ≠ some top
  links : Relation.ReflTransGen o.Link top left
  ends : o.scope? left = none

theorem isReference_top (h : Relation.ReflTransGen o.Link top left)
    (hleft : o.isReference left = true) : o.isReference top = true := by
  rcases h.cases_head with rfl | ⟨next, hnext, -⟩
  · exact hleft
  · exact isReference_of_scope? hnext

/-- Climbing goes up along the links of a chain. -/
theorem climbChain_links (n id : Nat) : Relation.ReflTransGen o.Link (o.climbChain n id) id := by
  induction n generalizing id with
  | zero => exact .refl
  | succ n ih =>
    unfold climbChain
    split
    · split
      · rename_i p _ hscope; exact (ih p).tail hscope
      · exact .refl
    · exact .refl

namespace Linked

/-- With more rounds than its number, climbing ends at a node that qualifies nothing. -/
theorem climbChain_maximal (ho : o.Linked) {n : Nat} (hn : id < n) :
    ∀ p, o.parent? (o.climbChain n id) = some p → o.scope? p ≠ some (o.climbChain n id) := by
  induction n generalizing id with
  | zero => omega
  | succ n ih =>
    intro p hp
    unfold climbChain at hp ⊢
    cases hparent : o.parent? id with
    | none => simp only [hparent] at hp; cases hp
    | some q =>
      have hlt := ho.parent_lt id q hparent
      by_cases hscope : o.scope? q = some id
      · simp only [hparent, hscope, if_true] at hp ⊢
        exact ih (by omega) p hp
      · simp only [hparent, hscope, if_false] at hp ⊢
        cases hp; exact hscope

theorem isChain_chainTop (ho : o.Linked) (href : o.isReference left = true)
    (hends : o.scope? left = none) (hsize : left < o.size) :
    o.IsChain (o.chainTop left) left where
  reference := isReference_top (climbChain_links o.size left) href
  maximal := ho.climbChain_maximal hsize
  links := climbChain_links o.size left
  ends := hends

theorem le_of_links (ho : o.Linked) (h : Relation.ReflTransGen o.Link top left) : top ≤ left := by
  induction h with
  | refl => exact Nat.le_refl _
  | tail _ hlink ih => have := (ho.scope_next _ _ hlink).1; omega

/-- The numbers between the top of a chain and its left end are the chain. -/
theorem scope?_eq_next (ho : o.Linked) (h : Relation.ReflTransGen o.Link top left)
    (htop : top ≤ id) (hleft : id < left) : o.scope? id = some (id + 1) := by
  induction h with
  | refl => omega
  | @tail mid last _ hlink ih =>
    have hnext := (ho.scope_next _ _ hlink).1
    rcases Nat.lt_or_ge id mid with hlt | hge
    · exact ih hlt
    · obtain rfl : id = mid := by omega
      rw [← hnext]; exact hlink

/-- A left end has one top. -/
theorem top_unique (ho : o.Linked) (h : o.IsChain top left) (h' : o.IsChain top' left) :
    top = top' := by
  -- a top inside of another chain with the same end would qualify the use before it
  have hnot : ∀ {a b : Nat}, o.IsChain a left → o.IsChain b left → ¬a < b := by
    intro a b ha hb hab
    have hb_le := ho.le_of_links hb.links
    have hprev : o.scope? (b - 1) = some (b - 1 + 1) :=
      ho.scope?_eq_next ha.links (by omega) (by omega)
    rw [Nat.sub_add_cancel (by omega)] at hprev
    exact hb.maximal (b - 1) (ho.scope_next _ _ hprev).2 hprev
  exact Nat.le_antisymm (Nat.le_of_not_lt (hnot h' h)) (Nat.le_of_not_lt (hnot h h'))

/-- **Chains come one after the other**: the later one starts behind the end of the earlier one. -/
theorem lt_top_of_lt (ho : o.Linked) (h : o.IsChain top left) (h' : o.IsChain top' left')
    (hlt : left < left') : left < top' := by
  by_contra hge
  have hinside := ho.scope?_eq_next h'.links (Nat.le_of_not_lt hge) hlt
  rw [h.ends] at hinside; cases hinside

end Linked

end Outline

namespace ConstantPrefix

open Outline

variable {r : ConstantPrefix} {o : Outline} {id top left : Nat}

/-- A chain offends when it starts with a bare name that is not well known and is not the header of a
declaration. -/
structure Offends (r : ConstantPrefix) (o : Outline) (top left : Nat) : Prop where
  chain : o.IsChain top left
  bare : ∃ name, o.role left = .reference name none false ∧ name ∉ r.wellKnown
  not_header : o.isHeader top = false

/-- Which nodes the rule does not let pass. -/
theorem isExempt_eq_false_iff :
    r.isExempt o id = false ↔
      (∃ name, o.role id = .reference name none false ∧ name ∉ r.wellKnown) ∧
        o.isHeader (o.chainTop id) = false := by
  unfold isExempt
  split
  · rename_i name scope rooted hrole
    cases scope <;> simp [hrole, and_assoc]
  · rename_i hrole
    constructor
    · intro h; cases h
    · rintro ⟨⟨name, h, -⟩, -⟩
      exact absurd h (hrole name none false)

/-- The rule lets a node pass unless it is the left end of an offending chain. -/
theorem offends_chainTop_iff (ho : o.Linked) :
    r.Offends o top left ↔ r.isExempt o left = false ∧ o.chainTop left = top := by
  have hchain : ∀ {name : String}, o.role left = .reference name none false →
      o.IsChain (o.chainTop left) left := by
    intro name hrole
    apply ho.isChain_chainTop
    · unfold isReference; rw [hrole]
    · unfold scope?; rw [hrole]
    · exact lt_size_of_role (by rw [hrole]; simp)
  rw [isExempt_eq_false_iff]
  constructor
  · intro h
    obtain ⟨name, hrole, hname⟩ := h.bare
    have htop := ho.top_unique (hchain hrole) h.chain
    rw [htop]
    exact ⟨⟨h.bare, h.not_header⟩, rfl⟩
  · rintro ⟨⟨⟨name, hrole, hname⟩, hheader⟩, rfl⟩
    exact ⟨hchain hrole, ⟨name, hrole, hname⟩, hheader⟩

/-- The left ends of the offending chains in pre-order. -/
def flagged (r : ConstantPrefix) (o : Outline) : List Nat :=
  o.preorder.filter (!r.isExempt o ·)

theorem offends_of_mem_flagged (ho : o.Linked) (h : id ∈ r.flagged o) :
    r.Offends o (o.chainTop id) id := by
  have hnot := (List.mem_filter.1 h).2
  exact (offends_chainTop_iff ho).2 ⟨by simpa using hnot, rfl⟩

theorem mem_flagged (ho : o.Linked) (h : r.Offends o top left) : left ∈ r.flagged o := by
  obtain ⟨name, hrole, -⟩ := h.bare
  refine List.mem_filter.2 ⟨?_, by simp [((offends_chainTop_iff ho).1 h).1]⟩
  rw [ho.preorder_eq, List.mem_range]
  exact lt_size_of_role (by rw [hrole]; simp)

/-- Each offending chain starts behind the end of the one before it. -/
theorem pairwise_flagged (ho : o.Linked) :
    (r.flagged o).Pairwise fun a b => a < o.chainTop b := by
  have hlt : (r.flagged o).Pairwise (· < ·) := by
    unfold flagged
    rw [ho.preorder_eq]
    exact List.pairwise_lt_range.filter _
  refine hlt.imp_of_mem fun {a b} ha hb hab => ?_
  exact ho.lt_top_of_lt (offends_of_mem_flagged ho ha).chain (offends_of_mem_flagged ho hb).chain hab

/-- The tops of the offending chains are in pre-order as well. -/
theorem tops_sublist (ho : o.Linked) : ((r.flagged o).map o.chainTop).Sublist o.preorder := by
  have hle : ∀ id ∈ r.flagged o, o.chainTop id ≤ id := fun id h =>
    ho.le_of_links (offends_of_mem_flagged ho h).chain.links
  have hlt : ((r.flagged o).map o.chainTop).Pairwise (· < ·) := by
    rw [List.pairwise_map]
    exact (pairwise_flagged ho).imp_of_mem fun {a b} ha _ hab => Nat.lt_of_le_of_lt (hle a ha) hab
  have hsub : (r.flagged o).map o.chainTop ⊆ o.preorder := by
    intro t ht
    obtain ⟨id, hid, rfl⟩ := List.mem_map.1 ht
    have hsize := (List.mem_filter.1 hid).1
    rw [ho.preorder_eq, List.mem_range] at hsize ⊢
    exact Nat.lt_of_le_of_lt (hle id hid) hsize
  have hnodup : ((r.flagged o).map o.chainTop).Nodup := hlt.imp fun h => Nat.ne_of_lt h
  apply List.sublist_of_subperm_of_pairwise (List.subperm_of_subset hnodup hsub) (hlt.imp Nat.le_of_lt)
  rw [ho.preorder_eq]
  exact List.pairwise_lt_range.imp Nat.le_of_lt

/-- **One violation for each offending chain, and no other.** For every file and every setting of the
rule, its violations are those of the offending chains, each chain once and in pre-order, and a
violation stands at the left end of its chain. -/
theorem check_eq_map_chains (r : ConstantPrefix) (ctx : FileContext) (source : Source)
    (root : Tree) :
    ∃ chains : List (Nat × Nat),
      (∀ top left, (top, left) ∈ chains ↔ r.Offends (.ofTree source root) top left) ∧
      (chains.map Prod.fst).Sublist (Outline.ofTree source root).preorder ∧
      (chains.map Prod.snd).Sublist (Outline.ofTree source root).preorder ∧
      (Outline.ofTree source root).preorder.Nodup ∧
      r.check ctx (.ofTree source root) = chains.map fun chain =>
        r.info.violation (ctx.locate ((Outline.ofTree source root).span chain.2)) r.message
          (r.suggestion ctx (.ofTree source root) chain.2) := by
  set o := Outline.ofTree source root
  have ho : o.Linked := linked_ofItem (Item.ofRoot source root)
  refine ⟨(r.flagged o).map fun id => (o.chainTop id, id), ?_, ?_, ?_, ?_, ?_⟩
  · intro top left
    rw [List.mem_map]
    constructor
    · rintro ⟨id, hid, heq⟩
      cases heq
      exact offends_of_mem_flagged ho hid
    · intro h
      exact ⟨left, mem_flagged ho h, by rw [((offends_chainTop_iff ho).1 h).2]⟩
  · rw [List.map_map]
    exact tops_sublist ho
  · rw [List.map_map]
    have hid : (Prod.snd ∘ fun id => (o.chainTop id, id)) = id := rfl
    rw [hid, List.map_id]
    exact List.filter_sublist
  · rw [ho.preorder_eq]
    exact List.nodup_range
  · rw [List.map_map]
    rfl

end ConstantPrefix

end RubyLint
