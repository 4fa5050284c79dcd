import Mathlib
import RubyLint.Proofs.Links

/-!
# Targets of multiple assignments

In `A, (B, C), *REST = values` each constant is assigned. Targets may be nested to any depth, in
lists such as `(B, C)` and in splats such as `*REST`. A constant is read as assigned by the node that
it stands right in, and splats do not read it so: `REST` becomes a use of a constant, which defines
nothing.

* `Tree.TargetAt`, `Item.ConstantTarget`: the targets of the multiple assignments of a file.
* `Outline.Assigns`, `Outline.Uses`: what follows for a constant that is read as assigned or as used.
* `ReadsAt.target`: how targets are read, by the nesting.
* `Outline.targetsAssigned_iff`: **constants are assigned except right in a splat.**
-/

namespace RubyLint

namespace Tree

/-- A node among targets that holds targets in turn, such as `(B, C)` or `*REST`. -/
def nestsTargets (n : Tree) : Bool :=
  n.kind = .destructuredLeftAssignment || n.kind = .restAssignment

/-- **A target of a list**: the way to it, through named children and nested targets only, and the
node that it stands right in. -/
inductive TargetAt : Tree → List Nat → Tree → Tree → Prop
  | direct {holder target : Tree} {k : Nat} (here : holder.namedChildren[k]? = some target) :
    TargetAt holder [k] holder target
  | nested {outer inner holder target : Tree} {k : Nat} {way : List Nat}
    (here : outer.namedChildren[k]? = some inner) (nests : inner.nestsTargets = true)
    (inside : TargetAt inner way holder target) : TargetAt outer (k :: way) holder target

end Tree

namespace Item

variable {source : Source} {asTarget : Bool} {n : Tree}

/-- The node at a way from a node, through what is read. -/
def partAt? : Tree → List Nat → Option Tree
  | n, [] => some n
  | n, k :: way => (parts n)[k]?.bind (partAt? · way)

/-- The node at a way from the top of a file, through what is read. The top itself is not read, and
of what is in it all constructs are. -/
def readAt? (root : Tree) : List Nat → Option Tree
  | [] => none
  | k :: way => root.namedChildren[k]?.bind (partAt? · way)

/-- **A constant that is the target of a multiple assignment**, anywhere in a file: the way to it
and the node that it stands right in. -/
def ConstantTarget (root : Tree) (way : List Nat) (holder target : Tree) : Prop :=
  ∃ above list inside, way = above ++ inside ∧ readAt? root above = some list ∧
    list.kind = .leftAssignmentList ∧ list.TargetAt inside holder target ∧
    target.kind = .constant

/-- A node with targets in it. -/
def hasTargets (n : Tree) : Bool :=
  n.kind = .leftAssignmentList || n.nestsTargets

theorem hasTargets_iff :
    hasTargets n = true ↔ n.kind = .leftAssignmentList ∨ n.kind = .destructuredLeftAssignment ∨
      n.kind = .restAssignment := by
  simp [hasTargets, Tree.nestsTargets]

theorem parts_of_hasTargets (h : hasTargets n = true) : parts n = n.namedChildren := by
  unfold parts
  rcases hasTargets_iff.1 h with h | h | h <;> rw [h]

/-- Of the nodes with targets, only a splat does not read them as such. -/
theorem holdsTargets_eq (h : hasTargets n = true) :
    holdsTargets n = decide (n.kind ≠ .restAssignment) := by
  unfold holdsTargets
  rcases hasTargets_iff.1 h with h | h | h <;> rw [h] <;> rfl

theorem label_of_hasTargets (h : hasTargets n = true) :
    (reading source asTarget n).label = .other := by
  obtain ⟨⟨kind, span, named, isError, isMissing, hasError, field⟩, ns⟩ := n
  rcases hasTargets_iff.1 h with h | h | h
  all_goals
    change kind = _ at h
    subst h
    unfold reading
    rw [if_neg (by simp [Tree.kind, Tree.info]), ofTree]
    rfl

/-- A constant is read as assigned among targets, and as used anywhere else. -/
theorem reading_constant (h : n.kind = .constant) :
    reading source asTarget n =
      mk (if asTarget then .assign (source.text n.span) else .reference (source.text n.span) false)
        n.span [] := by
  obtain ⟨⟨kind, span, named, isError, isMissing, hasError, field⟩, ns⟩ := n
  change kind = _ at h
  subst h
  unfold reading
  cases asTarget with
  | true => rfl
  | false =>
    rw [ofTree]
    rfl

end Item

namespace Outline

open Item

variable {o : Outline} {source : Source} {root list holder n m : Tree} {id p c k outer start : Nat}
  {way : List Nat} {t : Item} {ts : List Item} {name : String}

/-- The number at a way from a number, through children. -/
def below? (o : Outline) : Nat → List Nat → Option Nat
  | id, [] => some id
  | id, k :: way => (o.children id)[k]?.bind (o.below? · way)

theorem below?_append (o : Outline) (id : Nat) (way way' : List Nat) :
    o.below? id (way ++ way') = (o.below? id way).bind (o.below? · way') := by
  induction way generalizing id with
  | nil => rfl
  | cons k way ih =>
    rw [List.cons_append, below?, below?, Option.bind_assoc]
    congr 1
    funext c
    exact ih c

/-- The number of the `k`-th of several items. -/
theorem HoldsAll.exists_number (h : o.HoldsAll outer start ts) (hk : ts[k]? = some t) :
    ∃ id, (numbers start ts)[k]? = some id ∧ o.Holds (some outer) id t := by
  induction ts generalizing start k with
  | nil => cases hk
  | cons s ts ih =>
    cases k with
    | zero => cases hk; exact ⟨start, rfl, h.head⟩
    | succ k => exact ih h.tail hk

namespace ReadsAt

/-- The number of a part, which is read as the node that it stands in reads its parts. -/
theorem part (h : o.ReadsAt source id n) (hk : (parts n)[k]? = some m) :
    ∃ c, (o.children id)[k]? = some c ∧
      o.Holds (some id) c (reading source (holdsTargets n) m) := by
  obtain ⟨parent, asTarget, hholds⟩ := h
  have hinner := hholds.inner
  rw [hholds.children_eq]
  rw [children_reading] at hinner ⊢
  exact hinner.exists_number (by rw [List.getElem?_map, hk]; rfl)

theorem partAt (h : o.ReadsAt source id n) (hm : partAt? n way = some m) :
    ∃ c, o.below? id way = some c ∧ o.ReadsAt source c m := by
  induction way generalizing id n with
  | nil => cases hm; exact ⟨id, rfl, h⟩
  | cons k way ih =>
    obtain ⟨next, hk, hm⟩ := Option.bind_eq_some_iff.1 hm
    obtain ⟨c, hc, hnext⟩ := h.part hk
    obtain ⟨d, hd, hread⟩ := ih ⟨some id, _, hnext⟩ hm
    exact ⟨d, by rw [below?, hc]; exact hd, hread⟩

/-- **How targets are read**: each by the node that it stands right in. -/
theorem target (h : o.ReadsAt source id list) (hlist : hasTargets list = true)
    (ht : list.TargetAt way holder m) :
    ∃ p c, o.below? id way = some c ∧ o.ReadsAt source p holder ∧ hasTargets holder = true ∧
      o.Holds (some p) c (reading source (holdsTargets holder) m) := by
  induction ht generalizing id with
  | direct here =>
    rw [← parts_of_hasTargets hlist] at here
    obtain ⟨c, hc, hholds⟩ := h.part here
    exact ⟨id, c, by rw [below?, hc]; rfl, h, hlist, hholds⟩
  | nested here nests _ ih =>
    rw [← parts_of_hasTargets hlist] at here
    obtain ⟨c, hc, hholds⟩ := h.part here
    have hinner : hasTargets _ = true := Bool.or_eq_true_iff.2 (.inr nests)
    obtain ⟨p, d, hd, hread⟩ := ih ⟨some id, _, hholds⟩ hinner
    exact ⟨p, d, by rw [below?, hc]; exact hd, hread⟩

theorem role_of_hasTargets (h : o.ReadsAt source id n) (hn : hasTargets n = true) :
    o.role id = .other := by
  obtain ⟨parent, asTarget, hholds⟩ := h
  rw [hholds.role_eq, label_of_hasTargets hn]
  rfl

end ReadsAt

/-- Each node that is read has its number, at the way that leads to the node. -/
theorem exists_readsAt (source : Source) (h : readAt? root way = some n) :
    ∃ id, (ofTree source root).below? 0 way = some id ∧
      (ofTree source root).ReadsAt source id n := by
  cases way with
  | nil => cases h
  | cons k way =>
    obtain ⟨next, hk, hn⟩ := Option.bind_eq_some_iff.1 h
    have hholds : (ofTree source root).Holds none 0 (ofRoot source root) := holds_ofItem _
    have hinner := hholds.inner
    rw [children_ofRoot] at hinner
    obtain ⟨c, hc, hnext⟩ := hinner.exists_number
      (show _ = some (reading source false next) by rw [List.getElem?_map, hk]; rfl)
    rw [← children_ofRoot, ← hholds.children_eq] at hc
    have hread : (ofTree source root).ReadsAt source c next := ⟨some 0, false, hnext⟩
    obtain ⟨id, hid, hread⟩ := hread.partAt hn
    exact ⟨id, by rw [below?, hc]; exact hid, hread⟩

/-- A number is an assignment to a name: it is among the definitions of the name, and the rule on
prefixes never flags it. -/
structure Assigns (o : Outline) (id : Nat) (name : String) : Prop where
  role : o.role id = .assign name
  candidate : ⟨id, o.contextPath id, name⟩ ∈ o.candidates name
  unflagged : ∀ r : ConstantPrefix, id ∉ r.flagged o

/-- A number is a bare use of a name: it is no definition, and the rule on prefixes flags it unless
the name is well known. -/
structure Uses (o : Outline) (id : Nat) (name : String) : Prop where
  role : o.role id = .reference name none false
  no_candidate : ∀ defined, ∀ c ∈ o.candidates defined, c.node ≠ id
  flagged_iff : ∀ r : ConstantPrefix, id ∈ r.flagged o ↔ name ∉ r.wellKnown

namespace WellNumbered

theorem assigns (ho : o.WellNumbered) (h : o.role id = .assign name) : o.Assigns id name where
  role := h
  candidate := by
    refine List.mem_map.2 ⟨id, List.mem_filter.2 ⟨?_, by simp [defines, h]⟩, rfl⟩
    rw [ho.preorder_eq, List.mem_range]
    exact lt_size_of_role (by rw [h]; simp)
  unflagged := by
    intro r hmem
    have hexempt : r.isExempt o id = true := by
      unfold ConstantPrefix.isExempt
      rw [h]
    simp [ConstantPrefix.flagged, hexempt] at hmem

/-- A use right in a node of no interest to the rules qualifies nothing and is no header. -/
theorem uses (ho : o.WellNumbered) (h : o.role id = .reference name none false)
    (hp : o.parent? id = some p) (hother : o.role p = .other) : o.Uses id name where
  role := h
  no_candidate := by
    intro defined c hc heq
    obtain ⟨node, hnode, rfl⟩ := List.mem_map.1 hc
    have hdefines := (List.mem_filter.1 hnode).2
    change node = id at heq
    rw [heq] at hdefines
    simp [defines, h] at hdefines
  flagged_iff := by
    intro r
    have hscope : o.scope? p = none := by unfold scope?; rw [hother]
    have htop : o.chainTop id = id := by
      obtain ⟨rounds, hrounds⟩ : ∃ rounds, o.size = rounds + 1 :=
        ⟨o.size - 1, by have := ho.size_pos; omega⟩
      unfold chainTop
      rw [hrounds, climbChain, hp]
      simp [hscope]
    have hheader : o.isHeader id = false := by unfold isHeader; rw [hp]; simp [hother]
    have hexempt : r.isExempt o id = false ↔ name ∉ r.wellKnown := by
      rw [ConstantPrefix.isExempt_eq_false_iff, htop]
      simp [h, hheader]
    rw [← hexempt, ConstantPrefix.flagged, ho.preorder_eq, List.mem_filter, List.mem_range]
    have hsize : id < o.size := lt_size_of_role (by rw [h]; simp)
    simp [hsize]

end WellNumbered

/-- How each constant that is a target is read: as assigned, but for one right in a splat, which is
read as used. -/
theorem exists_number (source : Source) (h : ConstantTarget root way holder m) :
    ∃ id, (ofTree source root).below? 0 way = some id ∧ (ofTree source root).span id = m.span ∧
      (holder.kind ≠ .restAssignment → (ofTree source root).Assigns id (source.text m.span)) ∧
      (holder.kind = .restAssignment → (ofTree source root).Uses id (source.text m.span)) := by
  have ho : (ofTree source root).WellNumbered := wellNumbered_ofItem (ofRoot source root)
  obtain ⟨above, list, inside, rfl, hlist, hkind, htarget, hconstant⟩ := h
  obtain ⟨id, hid, hread⟩ := exists_readsAt source hlist
  obtain ⟨p, c, hc, hp, hholder, hholds⟩ := hread.target (hasTargets_iff.2 (.inl hkind)) htarget
  rw [reading_constant hconstant, holdsTargets_eq hholder] at hholds
  have hrole := hholds.role_eq
  refine ⟨c, by rw [below?_append, hid]; exact hc, hholds.span_eq, ?_, ?_⟩
  · intro hsplat
    refine ho.assigns ?_
    simpa [hsplat, Item.label, Item.Label.role] using hrole
  · intro hsplat
    refine ho.uses ?_ hholds.parent?_eq (hp.role_of_hasTargets hholder)
    simpa [hsplat, Item.label, Item.Label.role, Item.children, numbers] using hrole

/-- **Targets are definitions**, in one file. -/
def TargetsAssigned (source : Source) (root : Tree) : Prop :=
  ∀ way holder target, ConstantTarget root way holder target →
    ∃ id, (ofTree source root).below? 0 way = some id ∧
      (ofTree source root).Assigns id (source.text target.span)

/-- **Constants are assigned except right in a splat.** Each constant that is the target of a
multiple assignment has its number. It is an assignment to its name unless the constant stands right
in a splat; there it is a bare use of the name. So targets are definitions in a file exactly when no
splat holds a bare constant. -/
theorem targetsAssigned_iff (source : Source) (root : Tree) :
    (∀ way holder target, ConstantTarget root way holder target →
      ∃ id, (ofTree source root).below? 0 way = some id ∧
        (ofTree source root).span id = target.span ∧
        (holder.kind ≠ .restAssignment →
          (ofTree source root).Assigns id (source.text target.span)) ∧
        (holder.kind = .restAssignment →
          (ofTree source root).Uses id (source.text target.span))) ∧
    (TargetsAssigned source root ↔
      ∀ way holder target, ConstantTarget root way holder target →
        holder.kind ≠ .restAssignment) := by
  refine ⟨fun way holder target h => exists_number source h, ?_, ?_⟩
  · intro hall way holder target h hsplat
    -- one number cannot be both an assignment and a use
    obtain ⟨id, hid, hassigns⟩ := hall way holder target h
    obtain ⟨id', hid', -, -, huses⟩ := exists_number source h
    rw [hid] at hid'
    cases hid'
    have hrole := (huses hsplat).role
    rw [hassigns.role] at hrole
    cases hrole
  · intro hnone way holder target h
    obtain ⟨id, hid, -, hassigns, -⟩ := exists_number source h
    exact ⟨id, hid, hassigns (hnone way holder target h)⟩

/-- A multiple assignment with a splat. -/
def splat : Source :=
  .ofString "A, *REST = 1, 2\n"

/-- Its tree. -/
def splatTree : Tree :=
  .node { kind := .other "program", span := ⟨0, 16⟩ }
    [.node { kind := .assignment, span := ⟨0, 15⟩ }
      [.node { kind := .leftAssignmentList, span := ⟨0, 8⟩, field := some .left }
          [.node { kind := .constant, span := ⟨0, 1⟩ } [],
            .node { kind := .restAssignment, span := ⟨3, 8⟩ }
              [.node { kind := .constant, span := ⟨4, 8⟩ } []]],
        .node { kind := .other "right_assignment_list", span := ⟨11, 15⟩, field := some .right }
          [.node { kind := .other "integer", span := ⟨11, 12⟩ } [],
            .node { kind := .other "integer", span := ⟨14, 15⟩ } []]]]

/-- `REST` is a target, but it is read as a use: nothing defines it, and the rule flags it. -/
theorem splat_not_targetsAssigned :
    (∃ holder target, ConstantTarget splatTree [0, 0, 1, 0] holder target ∧
      splat.text target.span = "REST") ∧
    (ofTree splat splatTree).below? 0 [0, 0, 1, 0] = some 5 ∧
    (ofTree splat splatTree).role 5 = .reference "REST" none false ∧
    (ofTree splat splatTree).candidates "REST" = [] ∧
    ({} : ConstantPrefix).flagged (ofTree splat splatTree) = [5] ∧
    ¬TargetsAssigned splat splatTree := by
  have htarget : ∃ holder target, ConstantTarget splatTree [0, 0, 1, 0] holder target ∧
      splat.text target.span = "REST" := by
    refine ⟨_, _, ⟨[0, 0], _, [1, 0], rfl, rfl, rfl, .nested rfl rfl (.direct rfl), rfl⟩, ?_⟩
    cbv
  have hnumber : (ofTree splat splatTree).below? 0 [0, 0, 1, 0] = some 5 := by cbv
  have hrole : (ofTree splat splatTree).role 5 = .reference "REST" none false := by cbv
  have hcandidates : (ofTree splat splatTree).candidates "REST" = [] := by cbv
  have hflagged : ({} : ConstantPrefix).flagged (ofTree splat splatTree) = [5] := by cbv
  refine ⟨htarget, hnumber, hrole, hcandidates, hflagged, fun hall => ?_⟩
  obtain ⟨holder, target, h, -⟩ := htarget
  obtain ⟨id, hid, hassigns⟩ := hall _ _ _ h
  rw [hnumber] at hid
  cases hid
  rw [hassigns.role] at hrole
  cases hrole

end Outline

end RubyLint
