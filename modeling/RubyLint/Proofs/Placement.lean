import Mathlib
import RubyLint.Proofs.Batch
import RubyLint.Proofs.Chains
import RubyLint.Proofs.Origin

/-!
# Fixes of constants do not meet

A tree is well placed when the range of a node holds those of its children, one after the other. Its
items inherit this, and ranges of items none of which is inside the other are disjoint and in
pre-order. Offending chains are such items, and a fix stays in the range of its chain.

* `Tree.WellPlaced`: what a parser promises about ranges.
* `Item.Nested`, `Item.nested_ofRoot`: the items of a well placed tree.
* `Item.stop_le_start`: **an item ends before every item that comes after it**, unless that one is
  inside it.
* `Outline.Holds.chain_extent`: a chain of constants with a bare name in front is all of its item.
* `ConstantPrefix.applyFixes_check`: **all fixes of constants apply in one batch.**
-/

namespace RubyLint

/-- A range of whole characters inside a text. -/
structure Span.Fits (chars : List Char) (s : Span) : Prop where
  start_le_stop : s.start ≤ s.stop
  stop_le : s.stop ≤ Text.width chars
  start_boundary : Text.isBoundary s.start chars = true
  stop_boundary : Text.isBoundary s.stop chars = true

/-- A range lies inside another. -/
structure Span.Within (s outer : Span) : Prop where
  start_le : outer.start ≤ s.start
  stop_le : s.stop ≤ outer.stop

instance (chars : List Char) (s : Span) : Decidable (s.Fits chars) :=
  decidable_of_iff (s.start ≤ s.stop ∧ s.stop ≤ Text.width chars ∧
      Text.isBoundary s.start chars = true ∧ Text.isBoundary s.stop chars = true)
    ⟨fun ⟨ha, hb, hc, hd⟩ => ⟨ha, hb, hc, hd⟩, fun ⟨ha, hb, hc, hd⟩ => ⟨ha, hb, hc, hd⟩⟩

instance (s outer : Span) : Decidable (s.Within outer) :=
  decidable_of_iff (outer.start ≤ s.start ∧ s.stop ≤ outer.stop)
    ⟨fun ⟨ha, hb⟩ => ⟨ha, hb⟩, fun ⟨ha, hb⟩ => ⟨ha, hb⟩⟩

theorem Span.Within.refl (s : Span) : s.Within s := ⟨Nat.le_refl _, Nat.le_refl _⟩

theorem Span.Within.trans {a b c : Span} (hab : a.Within b) (hbc : b.Within c) : a.Within c :=
  ⟨Nat.le_trans hbc.start_le hab.start_le, Nat.le_trans hab.stop_le hbc.stop_le⟩

/-- The edit of a range that fits the text replaces exactly that range. -/
theorem Edit.locate_fits {ctx : FileContext} {span : Span} (h : span.Fits ctx.source.chars)
    (text : String) :
    (⟨ctx.locate span, text⟩ : Edit).start = span.start ∧
      (⟨ctx.locate span, text⟩ : Edit).stop = span.stop ∧
      (⟨ctx.locate span, text⟩ : Edit).fits ctx.source.chars = true := by
  have hstop : (⟨ctx.locate span, text⟩ : Edit).stop = span.stop := by
    have := h.start_le_stop
    change span.start + (span.stop - span.start) = span.stop
    omega
  refine ⟨rfl, hstop, Edit.fits_iff.2 ?_⟩
  rw [hstop]
  exact ⟨h.stop_le, h.start_boundary, h.stop_boundary⟩

/-- **What a parser promises about ranges**: they are ranges of whole characters of the text, children
lie inside their parent, and siblings are disjoint and in source order. -/
structure Tree.WellPlaced (chars : List Char) (t : Tree) : Prop where
  fits : ∀ n ∈ t.nodes, n.span.Fits chars
  nested : ∀ n ∈ t.nodes, ∀ c ∈ n.children, c.span.Within n.span
  ordered : ∀ n ∈ t.nodes, n.children.Pairwise fun a b => a.span.stop ≤ b.span.start

instance (chars : List Char) (t : Tree) : Decidable (t.WellPlaced chars) :=
  decidable_of_iff ((∀ n ∈ t.nodes, n.span.Fits chars) ∧
      (∀ n ∈ t.nodes, ∀ c ∈ n.children, c.span.Within n.span) ∧
      ∀ n ∈ t.nodes, n.children.Pairwise fun a b => a.span.stop ≤ b.span.start)
    ⟨fun ⟨ha, hb, hc⟩ => ⟨ha, hb, hc⟩, fun ⟨ha, hb, hc⟩ => ⟨ha, hb, hc⟩⟩

namespace Item

variable {source : Source} {a b s t : Item} {ts : List Item} {i j : Nat}

/-- The items inside an item lie inside its range, one after the other, and so on further in. -/
structure Nested (t : Item) : Prop where
  within : ∀ s ∈ t.items, ∀ c ∈ s.children, c.span.Within s.span
  ordered : ∀ s ∈ t.items, s.children.Pairwise fun a b => a.span.stop ≤ b.span.start

theorem mem_items_self (t : Item) : t ∈ t.items := by
  rw [items_eq]; exact List.mem_cons_self

theorem mem_items_of_child (hs : s ∈ t.children) : s ∈ t.items := by
  have hall : ∀ ts : List Item, s ∈ ts → s ∈ itemsAll ts := by
    intro ts hs
    induction ts with
    | nil => cases hs
    | cons u us ih =>
      rw [itemsAll]
      rcases List.mem_cons.1 hs with rfl | hs
      · exact List.mem_append_left _ (mem_items_self s)
      · exact List.mem_append_right _ (ih hs)
  rw [items_eq]
  exact List.mem_cons_of_mem t (hall t.children hs)

mutual
theorem items_subset : ∀ {t : Item}, s ∈ t.items → s.items ⊆ t.items
  | mk label span inner, hs => by
    rw [items_eq] at hs
    rcases List.mem_cons.1 hs with rfl | hs
    · exact List.Subset.refl _
    · rw [items_eq (mk label span inner)]
      exact fun c hc => List.mem_cons_of_mem _ (items_subset_all hs hc)
theorem items_subset_all : ∀ {ts : List Item}, s ∈ itemsAll ts → s.items ⊆ itemsAll ts
  | [], hs => by rw [itemsAll] at hs; cases hs
  | t :: ts, hs => by
    rw [itemsAll] at hs ⊢
    rcases List.mem_append.1 hs with hs | hs
    · exact fun c hc => List.mem_append_left _ (items_subset hs hc)
    · exact fun c hc => List.mem_append_right _ (items_subset_all hs hc)
end

theorem Nested.of_mem (h : t.Nested) (hs : s ∈ t.items) : s.Nested :=
  ⟨fun c hc => h.within c (items_subset hs hc), fun c hc => h.ordered c (items_subset hs hc)⟩

/-- The items of a well placed tree are nested. -/
theorem nested_ofRoot {root : Tree} (h : root.WellPlaced source.chars) :
    (ofRoot source root).Nested where
  within := by
    intro s hs c hc
    obtain ⟨n, hn, hread⟩ := exists_isReading source root hs
    obtain ⟨m, hm, hspan⟩ : ∃ m ∈ n.children, m.span = c.span := by
      have := hread.spans_sublist.subset (List.mem_map_of_mem hc)
      exact List.mem_map.1 this
    rw [hread.span_eq, ← hspan]
    exact h.nested n hn m hm
  ordered := by
    intro s hs
    obtain ⟨n, hn, hread⟩ := exists_isReading source root hs
    have hspans : (n.children.map Tree.span).Pairwise fun a b => a.stop ≤ b.start :=
      List.pairwise_map.2 (h.ordered n hn)
    exact List.pairwise_map.1 (hspans.sublist hread.spans_sublist)

theorem fits_ofRoot {root : Tree} (h : root.WellPlaced source.chars) :
    ∀ s ∈ (ofRoot source root).items, s.span.Fits source.chars := by
  intro s hs
  obtain ⟨n, hn, hread⟩ := exists_isReading source root hs
  rw [hread.span_eq]
  exact h.fits n hn

mutual
theorem span_within : ∀ {t : Item}, t.Nested → s ∈ t.items → s.span.Within t.span
  | mk label span inner, h, hs => by
    rw [items_eq] at hs
    rcases List.mem_cons.1 hs with rfl | hs
    · exact .refl _
    · obtain ⟨c, hc, hsc⟩ := span_within_one (fun c hc => h.of_mem (mem_items_of_child hc)) hs
      exact hsc.trans (h.within _ (mem_items_self _) c hc)
theorem span_within_one : ∀ {ts : List Item}, (∀ t ∈ ts, t.Nested) → s ∈ itemsAll ts →
    ∃ t ∈ ts, s.span.Within t.span
  | [], _, hs => by rw [itemsAll] at hs; cases hs
  | t :: ts, h, hs => by
    rw [itemsAll] at hs
    rcases List.mem_append.1 hs with hs | hs
    · exact ⟨t, List.mem_cons_self, span_within (h t List.mem_cons_self) hs⟩
    · obtain ⟨u, hu, hsu⟩ := span_within_one (fun u hu => h u (List.mem_cons_of_mem t hu)) hs
      exact ⟨u, List.mem_cons_of_mem t hu, hsu⟩
end

mutual
/-- **An item ends before every item that comes after it** and is not inside it. -/
theorem stop_le_start : ∀ {t : Item} {i j : Nat}, t.Nested → t.items[i]? = some a →
    t.items[j]? = some b → i + a.count ≤ j → a.span.stop ≤ b.span.start
  | mk label span inner, i, j, h, ha, hb, hij => by
    have hj : j < (mk label span inner).count := by
      rw [← length_items]; exact (List.getElem?_eq_some_iff.1 hb).1
    rw [items_eq] at ha hb
    cases i with
    | zero =>
      -- everything that follows the top is inside it
      cases ha; omega
    | succ i =>
      obtain ⟨j, rfl⟩ : ∃ k, j = k + 1 := ⟨j - 1, by omega⟩
      rw [List.getElem?_cons_succ] at ha hb
      exact stop_le_start_of_mem (fun c hc => h.of_mem (mem_items_of_child hc))
        (h.ordered _ (mem_items_self _)) ha hb (by omega)
theorem stop_le_start_of_mem : ∀ {ts : List Item} {i j : Nat}, (∀ t ∈ ts, t.Nested) →
    (ts.Pairwise fun a b => a.span.stop ≤ b.span.start) → (itemsAll ts)[i]? = some a →
    (itemsAll ts)[j]? = some b → i + a.count ≤ j → a.span.stop ≤ b.span.start
  | [], _, _, _, _, ha, _, _ => by rw [itemsAll] at ha; cases ha
  | t :: ts, i, j, h, hord, ha, hb, hij => by
    obtain ⟨hnext, hord⟩ := List.pairwise_cons.1 hord
    have hts : ∀ u ∈ ts, u.Nested := fun u hu => h u (List.mem_cons_of_mem t hu)
    rw [itemsAll] at ha hb
    rcases Nat.lt_or_ge i t.items.length with hi | hi
    · rw [List.getElem?_append_left hi] at ha
      rcases Nat.lt_or_ge j t.items.length with hj | hj
      · rw [List.getElem?_append_left hj] at hb
        exact stop_le_start (h t List.mem_cons_self) ha hb hij
      · -- the two are in different siblings
        rw [List.getElem?_append_right hj] at hb
        have hat := span_within (h t List.mem_cons_self) (List.mem_of_getElem? ha)
        obtain ⟨u, hu, hbu⟩ := span_within_one hts (List.mem_of_getElem? hb)
        exact Nat.le_trans hat.stop_le (Nat.le_trans (hnext u hu) hbu.start_le)
    · have hj : t.items.length ≤ j := by omega
      rw [List.getElem?_append_right hi] at ha
      rw [List.getElem?_append_right hj] at hb
      exact stop_le_start_of_mem hts hord ha hb (by omega)
end

/-- Uses of constants have at most one item inside them: what qualifies them. -/
def Slim (t : Item) : Prop :=
  ∀ s ∈ t.items, ∀ name rooted, s.label = .reference name rooted → s.children.length ≤ 1

theorem Slim.of_mem (h : t.Slim) (hs : s ∈ t.items) : s.Slim :=
  fun c hc => h c (items_subset hs hc)

theorem slim_ofRoot (source : Source) (root : Tree) : (ofRoot source root).Slim := by
  intro s hs
  obtain ⟨n, -, hread⟩ := exists_isReading source root hs
  exact hread.single

end Item

namespace Outline

open Item

variable {o : Outline} {parent : Option Nat} {top left : Nat} {t : Item}

/-- **A chain with a bare name in front is all of its item**: the numbers of the item end with the left
end of the chain, whose range lies inside that of the whole. -/
theorem Holds.chain_extent (h : o.Holds parent top t) (hslim : t.Slim) (hnested : t.Nested)
    (hlinks : Relation.ReflTransGen o.Link top left) {name : String} {rooted : Bool}
    (hrole : o.role left = .reference name none rooted) :
    top + t.count = left + 1 ∧ (o.span left).Within t.span := by
  induction hlinks using Relation.ReflTransGen.head_induction_on generalizing parent t with
  | refl =>
    rw [h.role_eq] at hrole
    rw [h.span_eq]
    obtain ⟨label, span, inner⟩ := t
    cases label with
    | reference =>
      cases inner with
      | nil => exact ⟨rfl, .refl _⟩
      | cons c cs => cases hrole
    | _ => cases hrole
  | @head top mid hlink _ ih =>
    obtain ⟨name', rooted', htop⟩ := scope?_eq_some_iff.1 hlink
    rw [h.role_eq] at htop
    obtain ⟨label, span, inner⟩ := t
    cases label with
    | reference =>
      have hlen := hslim _ (mem_items_self _) _ _ rfl
      match inner, hlen, htop with
      | [c], _, htop =>
        cases htop
        have hc : c ∈ (Item.mk (.reference name' rooted') span [c]).children := List.mem_cons_self
        have hmem := mem_items_of_child hc
        obtain ⟨hcount, hwithin⟩ := ih h.inner.head (hslim.of_mem hmem) (hnested.of_mem hmem)
        refine ⟨?_, hwithin.trans (hnested.within _ (mem_items_self _) c hc)⟩
        simp only [count, countAll]
        omega
    | _ => cases htop

end Outline

namespace ConstantPrefix

open Outline Item

variable {r : ConstantPrefix} {ctx : FileContext} {o : Outline} {t : Item} {id : Nat}

/-- The edit of a fix. -/
def edit (r : ConstantPrefix) (ctx : FileContext) (o : Outline) (id : Nat) : Edit :=
  match fullPath? o id with
  | some path => ⟨ctx.locate (o.span (o.chainTop id)), path.render r.separator⟩
  | none => ⟨ctx.location (o.span id).start (o.span id).start, r.separator⟩

theorem suggestion_edit (r : ConstantPrefix) (ctx : FileContext) (o : Outline) (id : Nat) :
    (r.suggestion ctx o id).edit = some (r.edit ctx o id) := by
  unfold suggestion edit
  cases fullPath? o id <;> rfl

/-- The edits of a file, one for each violation. -/
theorem filterMap_edit_check (r : ConstantPrefix) (ctx : FileContext) (o : Outline) :
    (r.check ctx o).filterMap (·.edit?) = (r.flagged o).map (r.edit ctx o) := by
  unfold check flagged
  rw [List.filterMap_map, ← List.filterMap_eq_map]
  congr 1
  funext id
  exact r.suggestion_edit ctx o id

/-- A fix replaces a range inside that of its chain: all of it, or nothing at the start of its left
end. -/
theorem exists_edit_eq (htop : (o.span (o.chainTop id)).Fits ctx.source.chars)
    (hid : (o.span id).Fits ctx.source.chars)
    (hwithin : (o.span id).Within (o.span (o.chainTop id))) :
    ∃ span text, r.edit ctx o id = ⟨ctx.locate span, text⟩ ∧ span.Fits ctx.source.chars ∧
      span.Within (o.span (o.chainTop id)) := by
  unfold edit
  split
  · exact ⟨_, _, rfl, htop, .refl _⟩
  · refine ⟨⟨(o.span id).start, (o.span id).start⟩, _, rfl, ?_, hwithin.start_le, ?_⟩
    · exact ⟨Nat.le_refl _, Nat.le_trans hid.start_le_stop hid.stop_le, hid.start_boundary,
        hid.start_boundary⟩
    · exact Nat.le_trans hid.start_le_stop hwithin.stop_le

/-- **The item of an offending chain** ends, by number, with the left end of the chain, and holds the
range of the fix, which fits the text. -/
theorem exists_item (hslim : t.Slim) (hnested : t.Nested)
    (hfits : ∀ s ∈ t.items, s.span.Fits ctx.source.chars) (hid : id ∈ r.flagged (ofItem t)) :
    ∃ item, t.items[(ofItem t).chainTop id]? = some item ∧
      (ofItem t).chainTop id + item.count = id + 1 ∧
      item.span.start ≤ (r.edit ctx (ofItem t) id).start ∧
      (r.edit ctx (ofItem t) id).stop ≤ item.span.stop ∧
      (r.edit ctx (ofItem t) id).fits ctx.source.chars = true := by
  have ho := linked_ofItem t
  have hoffends := offends_of_mem_flagged ho hid
  have hlinks := hoffends.chain.links
  obtain ⟨name, hrole, -⟩ := hoffends.bare
  have hleft : id < (ofItem t).size := lt_size_of_role (by rw [hrole]; simp)
  have htop : (ofItem t).chainTop id < (ofItem t).size :=
    Nat.lt_of_le_of_lt (ho.le_of_links hlinks) hleft
  obtain ⟨_, item, hitem, hholds, -⟩ := exists_holds t htop
  obtain ⟨_, bare, hbare, hholds', -⟩ := exists_holds t hleft
  have hmem := List.mem_of_getElem? hitem
  obtain ⟨hcount, hwithin⟩ :=
    hholds.chain_extent (hslim.of_mem hmem) (hnested.of_mem hmem) hlinks hrole
  obtain ⟨span, text, hedit, hspan, hin⟩ : ∃ span text,
      r.edit ctx (ofItem t) id = ⟨ctx.locate span, text⟩ ∧ span.Fits ctx.source.chars ∧
        span.Within ((ofItem t).span ((ofItem t).chainTop id)) := by
    apply exists_edit_eq
    · rw [hholds.span_eq]; exact hfits item hmem
    · rw [hholds'.span_eq]; exact hfits bare (List.mem_of_getElem? hbare)
    · rw [hholds.span_eq]; exact hwithin
  rw [hholds.span_eq] at hin
  obtain ⟨hstart, hstop, hfit⟩ := Edit.locate_fits hspan text
  refine ⟨item, hitem, hcount, ?_⟩
  rw [hedit, hstart, hstop]
  exact ⟨hin.start_le, hin.stop_le, hfit⟩

/-- **All fixes of constants apply in one batch.** For every file with a well placed tree and every
setting of the rule, the edits of its violations are all accepted and none is refused. -/
theorem applyFixes_check (r : ConstantPrefix) (ctx : FileContext) (root : Tree)
    (h : root.WellPlaced ctx.source.chars) :
    (Violation.applyFixes ctx.source.content
        (r.check ctx (.ofTree ctx.source root))).applied =
      (r.check ctx (.ofTree ctx.source root)).length ∧
    (Violation.applyFixes ctx.source.content
        (r.check ctx (.ofTree ctx.source root))).conflicts = 0 := by
  have hnested := nested_ofRoot h
  have hslim := slim_ofRoot ctx.source root
  have hfits := fits_ofRoot h
  unfold Outline.ofTree
  generalize Item.ofRoot ctx.source root = t at hnested hslim hfits
  have hlength : (r.check ctx (ofItem t)).length =
      ((r.flagged (ofItem t)).map (r.edit ctx (ofItem t))).length := by
    unfold check flagged; rw [List.length_map, List.length_map]
  unfold Violation.applyFixes
  rw [filterMap_edit_check, hlength]
  apply Edit.applyAll_of_pairwise
  · intro e he
    obtain ⟨id, hid, rfl⟩ := List.mem_map.1 he
    obtain ⟨item, -, -, -, -, hfit⟩ := exists_item hslim hnested hfits hid
    rw [← ctx.source.chars_eq]
    exact hfit
  · -- a chain ends before the next one starts, and their edits stay inside
    rw [List.pairwise_map]
    refine (pairwise_flagged (linked_ofItem t)).imp_of_mem fun {id next} hid hnext hlt => ?_
    obtain ⟨item, hitem, hcount, -, hstop, -⟩ := exists_item hslim hnested hfits hid
    obtain ⟨item', hitem', -, hstart, -, -⟩ := exists_item hslim hnested hfits hnext
    have hchains : item.span.stop ≤ item'.span.start :=
      stop_le_start hnested hitem hitem' (by omega)
    exact Nat.le_trans hstop (Nat.le_trans hchains hstart)

/-- A module with a constant, a use of that constant in a chain, and a use of another one. -/
def twoUses : FileContext :=
  .standalone ⟨"a.rb"⟩ "module A\n  B = 1\n  B::C\n  D\nend\n"

/-- Its tree. -/
def twoUsesTree : Tree :=
  .node { kind := .other "program", span := ⟨0, 32⟩ }
    [.node { kind := .moduleDecl, span := ⟨0, 31⟩ }
      [.node { kind := .constant, span := ⟨7, 8⟩, field := some .name } [],
        .node { kind := .other "body_statement", span := ⟨11, 27⟩, field := some .body }
          [.node { kind := .assignment, span := ⟨11, 16⟩ }
              [.node { kind := .constant, span := ⟨11, 12⟩, field := some .left } [],
                .node { kind := .other "integer", span := ⟨15, 16⟩, field := some .right } []],
            .node { kind := .scopeResolution, span := ⟨19, 23⟩ }
              [.node { kind := .constant, span := ⟨19, 20⟩, field := some .scope } [],
                .node { kind := .constant, span := ⟨22, 23⟩, field := some .name } []],
            .node { kind := .constant, span := ⟨26, 27⟩ } []]]]

/-- The chain is replaced as a whole and the other use gets a separator, in one batch. -/
theorem applyFixes_check_twoUses :
    twoUsesTree.WellPlaced twoUses.source.chars ∧
      (Violation.applyFixes twoUses.source.content
        (check {} twoUses (.ofTree twoUses.source twoUsesTree))).content =
          "module A\n  B = 1\n  ::A::B::C\n  ::D\nend\n" ∧
      (Violation.applyFixes twoUses.source.content
        (check {} twoUses (.ofTree twoUses.source twoUsesTree))).applied = 2 ∧
      (Violation.applyFixes twoUses.source.content
        (check {} twoUses (.ofTree twoUses.source twoUsesTree))).conflicts = 0 := by
  have hplaced : twoUsesTree.WellPlaced twoUses.source.chars := by decide +kernel
  have hlength : (check {} twoUses (.ofTree twoUses.source twoUsesTree)).length = 2 := by cbv
  obtain ⟨happlied, hconflicts⟩ := applyFixes_check {} twoUses twoUsesTree hplaced
  refine ⟨hplaced, ?_, happlied.trans hlength, hconflicts⟩
  cbv

end ConstantPrefix

end RubyLint
