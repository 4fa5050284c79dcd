import Mathlib.Data.List.Basic
import Mathlib.Tactic.Common
import RubyLint.Proofs.Batch
import RubyLint.Proofs.StableSort

/-!
# Which edits a batch accepts

A batch goes through its edits in a fixed order and takes what still fits behind the edits taken so
far. Edits are told apart by their places in the list, since a list may hold the same edit twice.

* `Earlier`, `placed`: the order by offset, length and place, and the edits in it.
* `Greedy`: an edit is taken exactly when it fits and starts no earlier than the end of every edit
  taken before it; `exists_greedy`: so does a batch when no end of an accepted edit wraps around.
* `Greedy.apart`, `Greedy.overlaps`, `Greedy.together`: taken edits are apart, an edit that fits and is
  not taken overlaps one that is, and insertions at one offset share their fate.
* `accepted_insertions`, `content_insertions`: insertions at one offset stand side by side.
* `TakesWhatFits`: which edits a batch accepts, and what follows; `takesWhatFits_iff`: **a batch accepts
  what fits exactly when the end of no edit that it accepts wraps around.**
-/

namespace RubyLint.Edit

open Text

variable {content : String} {chars : List Char} {cursor offset : Nat} {e a b : Edit} {i j : Nat}
  {edits : List Edit} {taken : Nat → Bool}

/-- One edit of a list is considered before another: by offset, by length, then by place. -/
def Earlier (x y : Edit × Nat) : Prop :=
  x.1.start < y.1.start ∨ x.1.start = y.1.start ∧
    (x.1.location.length < y.1.location.length ∨
      x.1.location.length = y.1.location.length ∧ x.2 < y.2)

/-- The edits of a list with their places in it, in the order in which they are considered. -/
def placed (edits : List Edit) : List (Edit × Nat) :=
  edits.zipIdx.mergeSort (List.zipIdxLE precedes)

theorem map_fst_placed (edits : List Edit) : (placed edits).map (·.1) = ordered edits :=
  List.mergeSort_zipIdx

theorem placed_perm (edits : List Edit) : (placed edits).Perm edits.zipIdx :=
  List.mergeSort_perm _ _

theorem mem_placed {x : Edit × Nat} : x ∈ placed edits ↔ edits[x.2]? = some x.1 := by
  rw [(placed_perm edits).mem_iff]; exact List.mk_mem_zipIdx_iff_getElem?

theorem nodup_places (edits : List Edit) : ((placed edits).map (·.2)).Nodup := by
  rw [((placed_perm edits).map _).nodup_iff, List.zipIdx_map_snd]
  exact List.nodup_range'

theorem Earlier.asymm {x y : Edit × Nat} (h : Earlier x y) : ¬Earlier y x := by
  unfold Earlier at *; omega

theorem Earlier.start_le {x y : Edit × Nat} (h : Earlier x y) : x.1.start ≤ y.1.start := by
  unfold Earlier at h; omega

theorem earlier_or_earlier (x y : Edit × Nat) (h : x.2 ≠ y.2) : Earlier x y ∨ Earlier y x := by
  unfold Earlier; omega

/-- **Edits are considered by offset, by length and by place.** -/
theorem placed_sorted (edits : List Edit) : (placed edits).Pairwise Earlier := by
  have hle := List.pairwise_mergeSort (List.zipIdxLE_trans precedes_trans)
    (List.zipIdxLE_total precedes_total) edits.zipIdx
  have hne : (placed edits).Pairwise fun x y => x.2 ≠ y.2 :=
    List.pairwise_map.1 (nodup_places edits)
  refine (hle.and hne).imp fun {x y} h => ?_
  obtain ⟨h, hplace⟩ := h
  unfold List.zipIdxLE at h
  unfold Earlier
  split at h
  · rename_i hxy
    rw [precedes_iff] at hxy
    split at h
    · rw [decide_eq_true_eq] at h; omega
    · rename_i hyx; rw [precedes_iff] at hyx; omega
  · cases h

/-- What comes before an edit in the order is what is considered before it. -/
theorem mem_before_iff {before after : List (Edit × Nat)} {x y : Edit × Nat}
    (h : placed edits = before ++ x :: after) :
    y ∈ before ↔ edits[y.2]? = some y.1 ∧ Earlier y x := by
  have hsorted := placed_sorted edits
  rw [h, List.pairwise_append] at hsorted
  obtain ⟨-, hafter, hbefore⟩ := hsorted
  constructor
  · intro hy
    refine ⟨mem_placed.1 ?_, hbefore y hy x List.mem_cons_self⟩
    rw [h]; exact List.mem_append_left _ hy
  · rintro ⟨hy, hlt⟩
    rw [← mem_placed, h, List.mem_append, List.mem_cons] at hy
    rcases hy with hy | rfl | hy
    · exact hy
    · exact absurd hlt hlt.asymm
    · exact absurd ((List.pairwise_cons.1 hafter).1 y hy) hlt.asymm

/-- **A batch takes what it can**: `taken` tells by place which edits of a list it takes. -/
structure Greedy (content : String) (edits : List Edit) (taken : Nat → Bool) : Prop where
  accepted_eq : accepted content edits = ((placed edits).filter (taken ·.2)).map (·.1)
  taken_iff : ∀ e i, edits[i]? = some e →
    (taken i = true ↔ e.fits content.toList = true ∧
      ∀ a j, edits[j]? = some a → Earlier (a, j) (e, i) → taken j = true → a.stop ≤ e.start)

/-- As long as the end of no accepted edit wraps around, an edit is accepted when it fits. -/
theorem select_cons_of_not_wraps {es : List Edit}
    (h : ∀ x ∈ (select chars cursor (e :: es)).1, ¬x.Wraps chars) :
    (select chars cursor (e :: es)).1 =
      if e.fits chars && decide (cursor ≤ e.start) then e :: (select chars e.stop es).1
      else (select chars cursor es).1 := by
  by_cases hfits : e.fits chars = true ∧ cursor ≤ e.start
  · simp [select_cons_of_fits, hfits]
  · rw [if_neg (by simpa using hfits), select_cons_fst, if_neg]
    intro haccepted
    rw [select_cons_fst, if_pos haccepted] at h
    rw [Bool.and_eq_true, decide_eq_true_eq] at haccepted
    exact hfits ⟨fits_of_inBounds haccepted.2 (h e List.mem_cons_self), haccepted.1⟩

/-- Among edits in order, those that `select` accepts if the end of none of them wraps around: each
fits and starts no earlier than the cursor and the end of every one accepted before it. -/
theorem exists_taken (chars : List Char) (cursor : Nat) (xs : List (Edit × Nat))
    (hplaces : (xs.map (·.2)).Nodup)
    (hwraps : ∀ e ∈ (select chars cursor (xs.map (·.1))).1, ¬e.Wraps chars) :
    ∃ taken : Nat → Bool,
      (select chars cursor (xs.map (·.1))).1 = (xs.filter (taken ·.2)).map (·.1) ∧
      ∀ before x after, xs = before ++ x :: after →
        (taken x.2 = true ↔ x.1.fits chars = true ∧ cursor ≤ x.1.start ∧
          ∀ y ∈ before, taken y.2 = true → y.1.stop ≤ x.1.start) := by
  induction xs generalizing cursor with
  | nil => exact ⟨fun _ => false, rfl, fun before x after h => by simp at h⟩
  | cons x xs ih =>
    rw [List.map_cons, List.nodup_cons] at hplaces
    obtain ⟨hx, hplaces⟩ := hplaces
    have hne : ∀ y ∈ xs, y.2 ≠ x.2 := fun y hy h => hx (h ▸ List.mem_map_of_mem hy)
    rw [List.map_cons] at hwraps ⊢
    have hcons := select_cons_of_not_wraps hwraps
    rw [hcons] at hwraps ⊢
    -- the verdict on `x` is added to the verdicts on the others
    set verdict := x.1.fits chars && decide (cursor ≤ x.1.start) with hverdict
    have hfits : verdict = true ↔ x.1.fits chars = true ∧ cursor ≤ x.1.start := by
      rw [hverdict, Bool.and_eq_true, decide_eq_true_eq]
    have hrest : ∀ e ∈ (select chars (if verdict then x.1.stop else cursor) (xs.map (·.1))).1,
        ¬e.Wraps chars := by
      cases hv : verdict
      · rw [hv, if_neg Bool.false_ne_true] at hwraps
        exact hwraps
      · rw [hv, if_pos rfl] at hwraps
        exact (List.forall_mem_cons.1 hwraps).2
    obtain ⟨taken, hselect, hiff⟩ := ih (if verdict then x.1.stop else cursor) hplaces hrest
    have hothers : ∀ y ∈ xs, Function.update taken x.2 verdict y.2 = taken y.2 :=
      fun y hy => Function.update_of_ne (hne y hy) _ _
    refine ⟨Function.update taken x.2 verdict, ?_, ?_⟩
    · have hfilter : xs.filter (Function.update taken x.2 verdict ·.2) = xs.filter (taken ·.2) :=
        List.filter_congr hothers
      cases hv : verdict <;> rw [hv] at hselect hfilter <;> simpa [hfilter] using hselect
    · intro before y after hsplit
      cases before with
      | nil =>
        obtain ⟨rfl, rfl⟩ := List.cons.inj hsplit
        simp [hfits]
      | cons z before =>
        obtain ⟨rfl, rfl⟩ := List.cons.inj hsplit
        rw [hothers y (by simp), hiff before y after rfl, List.forall_mem_cons,
          Function.update_self]
        have hrest : (∀ z ∈ before, taken z.2 = true → z.1.stop ≤ y.1.start) ↔
            ∀ z ∈ before, Function.update taken x.2 verdict z.2 = true → z.1.stop ≤ y.1.start := by
          refine forall₂_congr fun z hz => ?_
          rw [hothers z (List.mem_append_left _ hz)]
        rw [← hrest]
        cases hv : verdict
        · simp
        · have hcursor := (hfits.1 hv).2
          have hstop := x.1.start_le_stop
          simp only [if_true, forall_const]
          constructor
          · rintro ⟨hfits, hle, hall⟩; exact ⟨hfits, by omega, hle, hall⟩
          · rintro ⟨hfits, -, hle, hall⟩; exact ⟨hfits, hle, hall⟩

/-- **A batch is greedy** if the end of no edit that it accepts wraps around. -/
theorem exists_greedy (h : ∀ e ∈ accepted content edits, ¬e.Wraps content.toList) :
    ∃ taken, Greedy content edits taken := by
  have hwraps : ∀ e ∈ (select content.toList 0 ((placed edits).map (·.1))).1,
      ¬e.Wraps content.toList := by
    rw [map_fst_placed]; exact h
  obtain ⟨taken, hselect, hiff⟩ :=
    exists_taken content.toList 0 (placed edits) (nodup_places edits) hwraps
  rw [map_fst_placed] at hselect
  refine ⟨taken, hselect, fun e i he => ?_⟩
  obtain ⟨before, after, hsplit⟩ := List.append_of_mem (mem_placed (x := (e, i)).2 he)
  rw [hiff before (e, i) after hsplit]
  constructor
  · rintro ⟨hfits, -, hall⟩
    exact ⟨hfits, fun a j ha hlt => hall (a, j) ((mem_before_iff hsplit).2 ⟨ha, hlt⟩)⟩
  · rintro ⟨hfits, hall⟩
    refine ⟨hfits, Nat.zero_le _, fun y hy => ?_⟩
    obtain ⟨hy, hlt⟩ := (mem_before_iff hsplit).1 hy
    exact hall y.1 y.2 hy hlt

theorem isInsertion_iff : e.isInsertion = true ↔ e.location.length = 0 := by
  simp [isInsertion]

theorem stop_of_isInsertion (h : e.isInsertion = true) : e.stop = e.start := by
  rw [stop_eq, isInsertion_iff.1 h, Nat.add_zero]

/-- An insertion fits wherever its offset is between characters. -/
theorem fits_insertion (hins : e.isInsertion = true) :
    e.fits chars = isBoundary e.start chars := by
  rw [Bool.eq_iff_iff, fits_iff, stop_of_isInsertion hins]
  constructor
  · exact fun h => h.2.1
  · intro h
    obtain ⟨l, r, hsplit, hw⟩ := isBoundary_iff.1 h
    exact ⟨by rw [hsplit, width_append]; omega, h, h⟩

namespace Greedy

/-- Taken edits are apart: one of any two ends before the other one starts. -/
theorem apart (h : Greedy content edits taken) (ha : edits[i]? = some a) (hb : edits[j]? = some b)
    (hi : taken i = true) (hj : taken j = true) (hij : i ≠ j) :
    a.stop ≤ b.start ∨ b.stop ≤ a.start := by
  rcases earlier_or_earlier (a, i) (b, j) hij with hlt | hlt
  · exact Or.inl (((h.taken_iff b j hb).1 hj).2 a i ha hlt hi)
  · exact Or.inr (((h.taken_iff a i ha).1 hi).2 b j hb hlt hj)

/-- An edit that fits and is not taken starts inside one that is taken; an insertion starts past the
beginning of that one. -/
theorem overlaps (h : Greedy content edits taken) (he : edits[i]? = some e)
    (hfits : e.fits content.toList = true) (hi : taken i = false) :
    ∃ a j, edits[j]? = some a ∧ taken j = true ∧ a.start ≤ e.start ∧ e.start < a.stop ∧
      (e.isInsertion = true → a.start < e.start) := by
  have hnot := mt (h.taken_iff e i he).2 (by rw [hi]; exact Bool.false_ne_true)
  simp only [not_and, not_forall, Nat.not_le] at hnot
  obtain ⟨a, j, ha, hlt, hj, hstop⟩ := hnot hfits
  refine ⟨a, j, ha, hj, hlt.start_le, hstop, fun hins => ?_⟩
  -- of two edits at one offset the insertion comes first, and ends there
  have hlength := isInsertion_iff.1 hins
  unfold Earlier at hlt
  rw [stop_eq] at hstop
  simp only at hlt
  omega

/-- Insertions at one offset are all taken or all left. -/
theorem together (h : Greedy content edits taken) (ha : edits[i]? = some a)
    (hb : edits[j]? = some b) (hains : a.isInsertion = true) (hbins : b.isInsertion = true)
    (hstart : a.start = b.start) (hi : taken i = true) : taken j = true := by
  by_contra hj
  rw [Bool.not_eq_true] at hj
  have hfits : b.fits content.toList = true := by
    rw [fits_insertion hbins, ← hstart, ← fits_insertion hains]
    exact ((h.taken_iff a i ha).1 hi).1
  -- the edit in the way of `b` would be in the way of `a`
  obtain ⟨c, k, hc, hk, -, hstop, hlt⟩ := h.overlaps hb hfits hj
  have hik : i ≠ k := by
    rintro rfl
    rw [ha] at hc; cases hc
    exact absurd (hlt hbins) (by omega)
  have := hlt hbins
  have := a.start_le_stop
  rcases h.apart ha hc hi hk hik with h | h <;> omega

/-- A batch takes nothing exactly when nothing fits. -/
theorem accepted_eq_nil_iff (h : Greedy content edits taken) :
    accepted content edits = [] ↔ ∀ e ∈ edits, e.fits content.toList = false := by
  have hnil : accepted content edits = [] ↔ ∀ e i, edits[i]? = some e → taken i = false := by
    rw [h.accepted_eq, List.map_eq_nil_iff, List.filter_eq_nil_iff, Prod.forall]
    refine forall₂_congr fun e i => ?_
    rw [mem_placed, Bool.not_eq_true]
  rw [hnil]
  constructor
  · intro hnone e he
    obtain ⟨i, hi⟩ := List.mem_iff_getElem?.1 he
    by_contra hfits
    obtain ⟨a, j, ha, hj, -⟩ := h.overlaps hi (by simpa using hfits) (hnone e i hi)
    rw [hnone a j ha] at hj; cases hj
  · intro hfits e i he
    by_contra hi
    have hfit := ((h.taken_iff e i he).1 (by simpa using hi)).1
    rw [hfits e (List.mem_of_getElem? he)] at hfit; cases hfit

end Greedy

/-- An edit is an insertion at an offset. -/
def insertsAt (offset : Nat) (e : Edit) : Bool :=
  e.isInsertion && e.start == offset

theorem insertsAt_iff :
    e.insertsAt offset = true ↔ e.start = offset ∧ e.location.length = 0 := by
  unfold insertsAt
  rw [Bool.and_eq_true, isInsertion_iff, beq_iff_eq, and_comm]

theorem stop_of_insertsAt (h : e.insertsAt offset = true) : e.stop = offset := by
  obtain ⟨hstart, hlength⟩ := insertsAt_iff.1 h
  rw [stop_of_isInsertion (isInsertion_iff.2 hlength), hstart]

theorem stopIn_of_insertsAt (h : e.insertsAt offset = true) (hle : offset ≤ width chars) :
    e.stopIn chars = offset := by
  rw [stopIn_of_le (by rw [stop_of_insertsAt h]; exact hle), stop_of_insertsAt h]

/-- Insertions at one offset are considered as they are listed. -/
theorem filter_ordered_insertsAt (offset : Nat) (edits : List Edit) :
    (ordered edits).filter (insertsAt offset) = edits.filter (insertsAt offset) := by
  apply filter_mergeSort precedes_trans precedes_total
  intro a _ b _ ha hb
  have hat := insertsAt_iff.1 ha
  have hat' := insertsAt_iff.1 hb
  exact precedes_iff.2 (by omega)

/-- Edits in order stand in three groups around an offset: those that start before it, the
insertions at it, and the others. -/
theorem split_at_offset (offset : Nat) (h : edits.Pairwise fun a b => precedes a b = true) :
    edits = edits.filter (·.start < offset) ++ (edits.filter (insertsAt offset) ++
      edits.filter fun e => !(e.start < offset) && !e.insertsAt offset) := by
  induction edits with
  | nil => rfl
  | cons e es ih =>
    obtain ⟨hfirst, hrest⟩ := List.pairwise_cons.1 h
    have hlater : ∀ x ∈ es, e.start < x.start ∨
        e.start = x.start ∧ e.location.length ≤ x.location.length :=
      fun x hx => precedes_iff.1 (hfirst x hx)
    -- nothing behind `e` belongs to a group before that of `e`
    have hbefore : ¬e.start < offset → es.filter (·.start < offset) = [] := by
      intro he
      refine List.filter_eq_nil_iff.2 fun x hx => ?_
      have := hlater x hx
      rw [decide_eq_true_eq]; omega
    have hinserts : ¬e.start < offset → ¬e.insertsAt offset = true →
        es.filter (insertsAt offset) = [] := by
      intro he hins
      refine List.filter_eq_nil_iff.2 fun x hx => ?_
      have := hlater x hx
      rw [insertsAt_iff] at hins ⊢; omega
    by_cases hlt : e.start < offset
    · have hins : ¬e.insertsAt offset = true := by rw [insertsAt_iff]; omega
      simpa [hlt, hins] using ih hrest
    · rw [hbefore hlt, List.nil_append] at ih
      by_cases hins : e.insertsAt offset = true
      · simpa [hlt, hins, hbefore hlt] using ih hrest
      · rw [hinserts hlt hins, List.nil_append] at ih
        simpa [hlt, hins, hbefore hlt, hinserts hlt hins] using ih hrest

/-- **Accepted insertions at one offset** are all those of the list, side by side and as listed. -/
theorem Greedy.accepted_insertions (h : Greedy content edits taken) (he : edits[i]? = some e)
    (hins : e.isInsertion = true) (hi : taken i = true) :
    ∃ before after, accepted content edits =
      before ++ (edits.filter (insertsAt e.start) ++ after) := by
  have hall : (accepted content edits).filter (insertsAt e.start) =
      edits.filter (insertsAt e.start) := by
    rw [← filter_ordered_insertsAt e.start edits, ← map_fst_placed edits, h.accepted_eq,
      List.filter_map, List.filter_map, List.filter_filter]
    congr 1
    refine List.filter_congr fun x hx => ?_
    rw [Function.comp_apply, Bool.eq_iff_iff, Bool.and_eq_true]
    refine ⟨fun hx => hx.1, fun hat => ⟨hat, ?_⟩⟩
    obtain ⟨hstart, hlength⟩ := insertsAt_iff.1 hat
    exact h.together he (mem_placed.1 hx) hins (isInsertion_iff.2 hlength) hstart.symm hi
  exact ⟨_, _, hall ▸ split_at_offset e.start (accepted_sorted content edits)⟩

/-- Insertions at the cursor put their texts there one after the other. -/
theorem weave_insertions {inserted : List Edit} (h : ∀ e ∈ inserted, e.insertsAt cursor = true)
    (hcursor : cursor ≤ width chars) (after : List Edit) :
    weave chars cursor (inserted ++ after) =
      inserted.flatMap (·.newText.toList) ++ weave chars cursor after := by
  induction inserted with
  | nil => rfl
  | cons e es ih =>
    have he := h e List.mem_cons_self
    have hslice : (slice? cursor cursor chars).getD [] = [] := by
      unfold slice?; cases from? cursor chars <;> simp
    rw [List.cons_append, weave_cons, stopIn_of_insertsAt he hcursor, (insertsAt_iff.1 he).1, hslice,
      ih fun x hx => h x (List.mem_cons_of_mem e hx)]
    simp

/-- **The texts of accepted insertions at one offset** stand one after the other in the new text,
between what the batch makes of the text before the offset and of the text behind it. -/
theorem content_insertions {before after inserted : List Edit} (he : e ∈ inserted)
    (hins : ∀ x ∈ inserted, x.insertsAt e.start = true)
    (h : accepted content edits = before ++ (inserted ++ after)) :
    (applyAll content edits).content.toList =
      inFront content before e ++
        (inserted.flatMap (·.newText.toList) ++ weave content.toList e.start after) := by
  obtain ⟨first, rest, rfl⟩ := List.exists_cons_of_ne_nil (List.ne_nil_of_mem he)
  have hfirst := hins first List.mem_cons_self
  have htaken : Taken content.toList 0 (before ++ first :: (rest ++ after)) := by
    rw [← List.cons_append, ← h]; exact accepted_taken content edits
  have hin := htaken.inBounds first (List.mem_append_right before List.mem_cons_self)
  obtain ⟨front, back, hsplit, hw⟩ := isBoundary_iff.1 (inBounds_iff.1 hin).2.1
  have hstart : first.start = e.start := (insertsAt_iff.1 hfirst).1
  have hfront : inFront content before e = weave front 0 before := by
    unfold inFront; rw [hsplit, ← hstart, ← hw, upTo?_append, Option.getD_some]
  rw [applyAll_content, String.toList_ofList, h, hfront, List.cons_append]
  rw [hsplit] at htaken ⊢
  have hle : e.start ≤ width (front ++ back) := by
    rw [width_append, ← hstart, ← hw]; exact Nat.le_add_right _ _
  rw [weave_split (isBoundary_zero _) hw htaken, stopIn_of_insertsAt hfirst hle,
    weave_insertions (fun x hx => hins x (List.mem_cons_of_mem first hx)) hle]
  simp

theorem length_select (chars : List Char) (cursor : Nat) (edits : List Edit) :
    (select chars cursor edits).1.length + (select chars cursor edits).2.length = edits.length := by
  induction edits generalizing cursor with
  | nil => rfl
  | cons e es ih =>
    unfold select
    split
    · have := ih (e.stopIn chars); simp only [List.length_cons]; omega
    · have := ih cursor; simp only [List.length_cons]; omega

theorem applied_add_conflicts (content : String) (edits : List Edit) :
    (applyAll content edits).applied + (applyAll content edits).conflicts = edits.length := by
  rw [← (List.mergeSort_perm edits precedes).length_eq]
  exact length_select content.toList 0 (ordered edits)

/-- **Which edits a batch accepts**, told by place in `taken`. In the order of offset, length and place
in the list, exactly those that fit the text and start no earlier than the end of every edit accepted
before them. So accepted edits are apart; an edit that fits and is refused starts inside an accepted
one; insertions at one offset are accepted or refused together, and their texts then stand one after
the other as listed; and nothing is accepted exactly when nothing fits. -/
structure TakesWhatFits (content : String) (edits : List Edit) (taken : Nat → Bool) : Prop where
  order : (placed edits).Perm edits.zipIdx ∧ (placed edits).Pairwise Earlier
  accepted_eq : accepted content edits = ((placed edits).filter (taken ·.2)).map (·.1)
  taken_iff : ∀ e i, edits[i]? = some e →
    (taken i = true ↔ e.fits content.toList = true ∧
      ∀ a j, edits[j]? = some a → Earlier (a, j) (e, i) → taken j = true → a.stop ≤ e.start)
  applied_eq : (applyAll content edits).applied = (accepted content edits).length
  counted : (applyAll content edits).applied + (applyAll content edits).conflicts = edits.length
  apart : ∀ a i b j, edits[i]? = some a → edits[j]? = some b → taken i = true → taken j = true →
    i ≠ j → a.stop ≤ b.start ∨ b.stop ≤ a.start
  overlaps : ∀ e i, edits[i]? = some e → e.fits content.toList = true → taken i = false →
    ∃ a j, edits[j]? = some a ∧ taken j = true ∧ a.start ≤ e.start ∧ e.start < a.stop ∧
      (e.isInsertion = true → a.start < e.start)
  together : ∀ a i b j, edits[i]? = some a → edits[j]? = some b → a.isInsertion = true →
    b.isInsertion = true → a.start = b.start → taken i = taken j
  consecutive : ∀ e i, edits[i]? = some e → e.isInsertion = true → taken i = true →
    ∃ before after,
      accepted content edits = before ++ (edits.filter (insertsAt e.start) ++ after) ∧
      (applyAll content edits).content.toList =
        inFront content before e ++
          ((edits.filter (insertsAt e.start)).flatMap (·.newText.toList) ++
            weave content.toList e.start after)
  applied_zero : (applyAll content edits).applied = 0 ↔
    ∀ e ∈ edits, e.fits content.toList = false

theorem Greedy.takesWhatFits (h : Greedy content edits taken) :
    TakesWhatFits content edits taken := by
  refine ⟨⟨placed_perm edits, placed_sorted edits⟩, h.accepted_eq, h.taken_iff, rfl,
    applied_add_conflicts content edits, fun a i b j ha hb hi hj hij => h.apart ha hb hi hj hij,
    fun e i he hfits hi => h.overlaps he hfits hi, ?_, ?_, ?_⟩
  · intro a i b j ha hb hains hbins hstart
    rw [Bool.eq_iff_iff]
    exact ⟨h.together ha hb hains hbins hstart, h.together hb ha hbins hains hstart.symm⟩
  · intro e i he hins hi
    obtain ⟨before, after, hsplit⟩ := h.accepted_insertions he hins hi
    have hmem : e ∈ edits.filter (insertsAt e.start) :=
      List.mem_filter.2 ⟨List.mem_of_getElem? he, by simp [insertsAt, hins]⟩
    exact ⟨before, after, hsplit,
      content_insertions hmem (fun x hx => (List.mem_filter.1 hx).2) hsplit⟩
  · rw [← h.accepted_eq_nil_iff, ← List.length_eq_zero_iff]
    rfl

theorem TakesWhatFits.fits (h : TakesWhatFits content edits taken) :
    ∀ e ∈ accepted content edits, e.fits content.toList = true := by
  intro e he
  rw [h.accepted_eq] at he
  obtain ⟨⟨e, i⟩, hmem, rfl⟩ := List.mem_map.1 he
  obtain ⟨hplaced, htaken⟩ := List.mem_filter.1 hmem
  exact ((h.taken_iff e i (mem_placed.1 hplaced)).1 htaken).1

/-- **A batch accepts what fits exactly when the end of no edit that it accepts wraps around.** So it
does with edits whose ends fit in 64 bits. Whether or not it does, an accepted edit that does not fit
is one whose end wraps around, and every edit is counted as applied or as a conflict. -/
theorem takesWhatFits_iff (content : String) (edits : List Edit) :
    ((∃ taken, TakesWhatFits content edits taken) ↔
      ∀ e ∈ accepted content edits, ¬e.Wraps content.toList) ∧
    ((∀ e ∈ edits, e.stop < UInt64.size) → ∃ taken, TakesWhatFits content edits taken) ∧
    (∀ e ∈ accepted content edits, e.fits content.toList = true ∨ e.Wraps content.toList) ∧
    (applyAll content edits).applied + (applyAll content edits).conflicts = edits.length := by
  have hgreedy (h : ∀ e ∈ accepted content edits, ¬e.Wraps content.toList) :
      ∃ taken, TakesWhatFits content edits taken := by
    obtain ⟨taken, h⟩ := exists_greedy h
    exact ⟨taken, h.takesWhatFits⟩
  refine ⟨⟨?_, hgreedy⟩, fun hsmall => ?_, ?_, applied_add_conflicts content edits⟩
  · rintro ⟨taken, h⟩ e he
    exact not_wraps_of_fits (h.fits e he)
  · exact hgreedy fun e he hwraps => Nat.not_le.2 (hsmall e (mem_of_mem_accepted he)) hwraps.2
  · exact fun e he => fits_or_wraps ((accepted_taken content edits).inBounds e he)

/-- The edit ends far behind the text, and is accepted. -/
theorem overlong_not_takesWhatFits :
    overlong.start < UInt64.size ∧ overlong.location.length < UInt64.size ∧
      overlong.fits "abcd".toList = false ∧ accepted "abcd" [overlong] = [overlong] ∧
      ¬∃ taken, TakesWhatFits "abcd" [overlong] taken := by
  have hfits : overlong.fits "abcd".toList = false := by decide
  refine ⟨by decide, by decide, hfits, accepted_overlong, ?_⟩
  rintro ⟨taken, h⟩
  have hin := h.fits overlong overlong_mem_accepted
  rw [hfits] at hin
  cases hin

end RubyLint.Edit
