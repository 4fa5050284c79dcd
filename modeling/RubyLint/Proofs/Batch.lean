import RubyLint.Batch
import RubyLint.Proofs.Offsets

/-!
# Batches of edits

What a batch makes of a text, told by the edits that it accepts.

* `stopIn_eq_mod`: where an edit is taken to end is the sum of its offset and length in 64 bits.
* `fits`, `Wraps`: an edit whose range is in the text, and one whose end wraps around; `fits_or_wraps`:
  every edit in bounds is one or the other.
* `Taken`: edits in order, each in bounds and no earlier than where the one before it is taken to end;
  `select_taken`: so are accepted edits.
* `weave_split`: **the text around an accepted edit.** In front of it stands what the edits accepted
  before it make of the text in front of it, whatever comes after.
* `ordered_eq_cons`: which edit is considered first.
* `applyAll_of_pairwise`: **edits that fit and follow one another all apply.**
* `accepted_of_top`: the first one of the insertions at byte 0 is accepted first.
* `applyAll_content_split`: the new text around an accepted edit.
-/

namespace RubyLint.Edit

open Text

variable {content : String} {chars front back : List Char} {cursor : Nat} {e : Edit}
  {edits before after : List Edit}

/-! ## Where the range of an edit ends -/

/-- An edit fits a text when its range is inside the text and cuts no character. -/
def fits (chars : List Char) (e : Edit) : Bool :=
  e.stop ≤ width chars && isBoundary e.start chars && isBoundary e.stop chars

/-- The range of an edit ends past the text, at an offset that does not fit in 64 bits. -/
def Wraps (chars : List Char) (e : Edit) : Prop :=
  width chars < e.stop ∧ UInt64.size ≤ e.stop

instance (chars : List Char) (e : Edit) : Decidable (e.Wraps chars) :=
  inferInstanceAs (Decidable (_ ∧ _))

theorem stop_eq (e : Edit) : e.stop = e.start + e.location.length := rfl

theorem start_le_stop (e : Edit) : e.start ≤ e.stop :=
  Nat.le_add_right _ _

theorem fits_iff :
    e.fits chars = true ↔
      e.stop ≤ width chars ∧ isBoundary e.start chars = true ∧ isBoundary e.stop chars = true := by
  unfold fits
  rw [Bool.and_eq_true, Bool.and_eq_true, decide_eq_true_eq, and_assoc]

theorem inBounds_iff :
    e.inBounds chars = true ↔ e.stopIn chars ≤ width chars ∧ isBoundary e.start chars = true ∧
      isBoundary (e.stopIn chars) chars = true := by
  unfold inBounds
  rw [Bool.and_eq_true, Bool.and_eq_true, decide_eq_true_eq, and_assoc]

theorem stopIn_of_le (h : e.stop ≤ width chars) : e.stopIn chars = e.stop :=
  if_pos h

/-- In a text that a machine can hold, the end is the sum in 64-bit arithmetic. -/
theorem stopIn_eq_mod (h : width chars < UInt64.size) : e.stopIn chars = e.stop % UInt64.size := by
  unfold stopIn
  split
  · rename_i hle
    rw [Nat.mod_eq_of_lt (Nat.lt_of_le_of_lt hle h)]
  · rfl

theorem stopIn_of_fits (h : e.fits chars = true) : e.stopIn chars = e.stop :=
  stopIn_of_le (fits_iff.1 h).1

theorem inBounds_of_fits (h : e.fits chars = true) : e.inBounds chars = true := by
  rw [inBounds_iff, stopIn_of_fits h]
  exact fits_iff.1 h

theorem not_wraps_of_fits (h : e.fits chars = true) : ¬e.Wraps chars :=
  fun hwraps => Nat.not_le.2 hwraps.1 (fits_iff.1 h).1

/-- **An edit in bounds** fits the text, or its end wraps around. -/
theorem fits_or_wraps (h : e.inBounds chars = true) : e.fits chars = true ∨ e.Wraps chars := by
  have hin := inBounds_iff.1 h
  rcases Nat.lt_or_ge (width chars) e.stop with hlt | hle
  · right
    refine ⟨hlt, Nat.not_lt.1 fun hsmall => ?_⟩
    -- a sum that fits in 64 bits is exact, so this one would end past the text for the batch too
    have hstop : e.stopIn chars = e.stop := by
      unfold stopIn
      rw [if_neg (Nat.not_le.2 hlt), Nat.mod_eq_of_lt hsmall]
    omega
  · left
    rw [stopIn_of_le hle] at hin
    exact fits_iff.2 hin

theorem fits_of_inBounds (h : e.inBounds chars = true) (hwraps : ¬e.Wraps chars) :
    e.fits chars = true :=
  (fits_or_wraps h).resolve_right hwraps

/-- Where an edit is taken to end does not depend on the text behind, if that is not past `front`. -/
theorem stopIn_append_left (h : e.stopIn (front ++ back) ≤ width front) :
    e.stopIn front = e.stopIn (front ++ back) := by
  have hwidth := width_append front back
  unfold stopIn at h ⊢
  split at h
  · rename_i hin
    rw [if_pos h, if_pos hin]
  · rename_i hin
    rw [if_neg hin, if_neg (by omega)]

/-! ## The order of a batch -/

theorem precedes_iff {a b : Edit} :
    precedes a b = true ↔
      a.start < b.start ∨ a.start = b.start ∧ a.location.length ≤ b.location.length := by
  simp [precedes]

theorem start_le_of_precedes {a b : Edit} (h : precedes a b = true) : a.start ≤ b.start := by
  rw [precedes_iff] at h; omega

theorem precedes_trans (a b c : Edit) (hab : precedes a b = true) (hbc : precedes b c = true) :
    precedes a c = true := by
  rw [precedes_iff] at *; omega

theorem precedes_total (a b : Edit) : (precedes a b || precedes b a) = true := by
  rw [Bool.or_eq_true, precedes_iff, precedes_iff]; omega

theorem ordered_sorted (edits : List Edit) :
    (ordered edits).Pairwise fun a b => precedes a b = true :=
  List.pairwise_mergeSort precedes_trans precedes_total edits

/-! ## Accepted edits -/

/-- The accepted edits of a batch, in the order in which they are considered. -/
def accepted (content : String) (edits : List Edit) : List Edit :=
  (select content.toList 0 (ordered edits)).1

theorem applyAll_content (content : String) (edits : List Edit) :
    (applyAll content edits).content =
      String.ofList (weave content.toList 0 (accepted content edits)) := rfl

theorem weave_nil (chars : List Char) (cursor : Nat) :
    weave chars cursor [] = (from? cursor chars).getD [] := rfl

theorem weave_cons (chars : List Char) (cursor : Nat) (e : Edit) (es : List Edit) :
    weave chars cursor (e :: es) = (slice? cursor e.start chars).getD [] ++
      (e.newText.toList ++ weave chars (e.stopIn chars) es) := rfl

theorem select_cons_fst (chars : List Char) (cursor : Nat) (e : Edit) (es : List Edit) :
    (select chars cursor (e :: es)).1 =
      if cursor ≤ e.start && e.inBounds chars then e :: (select chars (e.stopIn chars) es).1
      else (select chars cursor es).1 := by
  rw [select]
  split <;> rfl

/-- An edit that fits, with nothing taken behind its start, is accepted. -/
theorem select_cons_of_fits (hfits : e.fits chars = true) (hcursor : cursor ≤ e.start)
    (es : List Edit) : select chars cursor (e :: es) =
      (e :: (select chars e.stop es).1, (select chars e.stop es).2) := by
  rw [select, inBounds_of_fits hfits, stopIn_of_fits hfits]
  simp [hcursor]

theorem select_sublist (chars : List Char) (cursor : Nat) (edits : List Edit) :
    (select chars cursor edits).1.Sublist edits := by
  induction edits generalizing cursor with
  | nil => exact List.Sublist.refl _
  | cons e es ih =>
    rw [select_cons_fst]
    split
    · exact (ih _).cons_cons e
    · exact (ih cursor).cons e

theorem accepted_sorted (content : String) (edits : List Edit) :
    (accepted content edits).Pairwise fun a b => precedes a b = true :=
  (ordered_sorted edits).sublist (select_sublist _ _ _)

theorem mem_of_mem_accepted (h : e ∈ accepted content edits) : e ∈ edits :=
  (List.mergeSort_perm edits precedes).mem_iff.1 ((select_sublist _ _ _).subset h)

/-- Edits in the order of their offsets, each of which is in bounds and starts no earlier than where
the one before it is taken to end, the first one no earlier than `cursor`. -/
def Taken (chars : List Char) : Nat → List Edit → Prop
  | _, [] => True
  | cursor, e :: es => cursor ≤ e.start ∧ e.inBounds chars = true ∧ (∀ x ∈ es, e.start ≤ x.start) ∧
      Taken chars (e.stopIn chars) es

/-- **Accepted edits are in bounds and follow one another.** -/
theorem select_taken (chars : List Char) (cursor : Nat)
    (hsorted : edits.Pairwise fun a b => precedes a b = true) :
    Taken chars cursor (select chars cursor edits).1 := by
  induction edits generalizing cursor with
  | nil => trivial
  | cons e es ih =>
    obtain ⟨hfirst, hsorted⟩ := List.pairwise_cons.1 hsorted
    rw [select_cons_fst]
    split
    · rename_i h
      rw [Bool.and_eq_true, decide_eq_true_eq] at h
      exact ⟨h.1, h.2, fun x hx =>
        start_le_of_precedes (hfirst x ((select_sublist _ _ _).subset hx)), ih _ hsorted⟩
    · exact ih cursor hsorted

theorem accepted_taken (content : String) (edits : List Edit) :
    Taken content.toList 0 (accepted content edits) :=
  select_taken content.toList 0 (ordered_sorted edits)

/-- An edit whose length is the greatest 64-bit number. It starts at offset 3, so its end wraps around
to offset 2. -/
def overlong : Edit :=
  ⟨{ file := ⟨"a.rb"⟩, line := 1, column := 4, offset := 3, length := UInt64.size - 1 }, "X"⟩

theorem accepted_overlong : accepted "abcd" [overlong] = [overlong] := by
  have hordered : ordered [overlong] = [overlong] := List.mergeSort_singleton overlong
  unfold accepted
  rw [hordered]
  decide

theorem overlong_mem_accepted : overlong ∈ accepted "abcd" [overlong] := by
  rw [accepted_overlong]
  exact List.mem_singleton_self _

theorem Taken.le_start (h : Taken chars cursor (before ++ e :: after)) : cursor ≤ e.start := by
  cases before with
  | nil => exact h.1
  | cons x before =>
    exact Nat.le_trans h.1 (h.2.2.1 e (List.mem_append_right before List.mem_cons_self))

theorem Taken.inBounds (h : Taken chars cursor edits) : ∀ e ∈ edits, e.inBounds chars = true := by
  induction edits generalizing cursor with
  | nil => exact List.forall_mem_nil _
  | cons e es ih => exact List.forall_mem_cons.2 ⟨h.2.1, ih h.2.2.2⟩

/-- **The text around an accepted edit.** -/
theorem weave_split (hc : isBoundary cursor (front ++ back) = true) (hw : width front = e.start)
    (h : Taken (front ++ back) cursor (before ++ e :: after)) :
    weave (front ++ back) cursor (before ++ e :: after) =
      weave front cursor before ++
        (e.newText.toList ++ weave (front ++ back) (e.stopIn (front ++ back)) after) := by
  induction before generalizing cursor with
  | nil =>
    -- nothing is in the way: the stretch from the cursor to the edit is the rest of the front
    have hle : cursor ≤ width front := by rw [hw]; exact h.le_start
    obtain ⟨l, k, rfl, rfl⟩ := isBoundary_iff.1 (isBoundary_append_left hc hle)
    have hslice := slice?_middle l k back
    rw [← List.append_assoc, ← width_append, hw] at hslice
    rw [List.nil_append, weave_cons, weave_nil, hslice, from?_append]
  | cons x before ih =>
    obtain ⟨hcx, hin, hlater, hrest⟩ := h
    obtain ⟨-, hxs, hxt⟩ := inBounds_iff.1 hin
    have hle : x.start ≤ width front := by
      rw [hw]; exact hlater e (List.mem_append_right before List.mem_cons_self)
    have hstop : x.stopIn front = x.stopIn (front ++ back) := by
      apply stopIn_append_left
      rw [hw]; exact hrest.le_start
    -- the stretch from the cursor to `x` lies in the front, so the back does not matter for it
    obtain ⟨l, k, r, rfl, rfl, hk⟩ := exists_split
      (isBoundary_append_left hc (Nat.le_trans hcx hle)) (isBoundary_append_left hxs hle) hcx
    have hfull := slice?_middle l k (r ++ back)
    have hfront := slice?_middle l k r
    rw [hk] at hfull hfront
    rw [List.cons_append, weave_cons, weave_cons, ih hxt hrest, hfront, hstop]
    simp only [List.append_assoc, hfull, Option.getD_some]

/-- **The edit considered first.** An edit that precedes all others, and is preceded by none of those
listed before it, is considered first. -/
theorem ordered_eq_cons {earlier later : List Edit}
    (hlater : ∀ x ∈ later, precedes e x = true) (hearlier : ∀ x ∈ earlier, precedes x e = false) :
    ∃ rest, ordered (earlier ++ e :: later) = e :: rest := by
  induction earlier with
  | nil =>
    obtain ⟨l, r, hsort, hrest, hl⟩ := List.mergeSort_cons precedes_trans precedes_total e later
    refine ⟨r, ?_⟩
    cases l with
    | nil => exact hsort
    | cons x l =>
      have hx : x ∈ later.mergeSort precedes := by rw [hrest]; exact List.mem_cons_self
      have hex := hl x List.mem_cons_self
      rw [hlater x (List.mem_mergeSort.1 hx)] at hex; cases hex
  | cons x earlier ih =>
    obtain ⟨rest, ih⟩ := ih fun y hy => hearlier y (List.mem_cons_of_mem x hy)
    obtain ⟨l, r, hsort, hrest, -⟩ :=
      List.mergeSort_cons precedes_trans precedes_total x (earlier ++ e :: later)
    unfold ordered at ih ⊢
    rw [ih] at hrest
    rw [List.cons_append, hsort]
    -- where `x` goes among the others, which start with `e`: not in front of it
    cases l with
    | cons y l => cases hrest; exact ⟨_, rfl⟩
    | nil =>
      rw [List.nil_append] at hrest hsort
      have hsorted := List.pairwise_mergeSort precedes_trans precedes_total
        (x :: (earlier ++ e :: later))
      rw [hsort, ← hrest] at hsorted
      have hxe : precedes x e = true := (List.pairwise_cons.1 hsorted).1 e List.mem_cons_self
      rw [hearlier x List.mem_cons_self] at hxe; cases hxe

/-- Edits that follow one another are considered as they are listed. -/
theorem ordered_of_pairwise (h : edits.Pairwise fun a b => a.stop ≤ b.start) :
    ordered edits = edits := by
  apply List.mergeSort_of_pairwise
  refine h.imp fun {a b} hab => precedes_iff.2 ?_
  rw [stop_eq] at hab
  omega

/-- Edits that fit and follow one another are all accepted. -/
theorem select_of_pairwise (hfits : ∀ e ∈ edits, e.fits chars = true)
    (hcursor : ∀ e ∈ edits, cursor ≤ e.start)
    (h : edits.Pairwise fun a b => a.stop ≤ b.start) :
    select chars cursor edits = (edits, []) := by
  induction edits generalizing cursor with
  | nil => rfl
  | cons e es ih =>
    obtain ⟨hnext, hrest⟩ := List.pairwise_cons.1 h
    have hrest := ih (fun x hx => hfits x (List.mem_cons_of_mem e hx)) hnext hrest
    rw [select_cons_of_fits (hfits e List.mem_cons_self) (hcursor e List.mem_cons_self), hrest]

/-- **A batch without conflicts**: edits that fit the text and follow one another all apply. -/
theorem applyAll_of_pairwise (hfits : ∀ e ∈ edits, e.fits content.toList = true)
    (h : edits.Pairwise fun a b => a.stop ≤ b.start) :
    (applyAll content edits).applied = edits.length ∧
      (applyAll content edits).conflicts = 0 := by
  have hselect := select_of_pairwise hfits (fun e _ => Nat.zero_le e.start) h
  unfold applyAll
  simp [ordered_of_pairwise h, hselect]

/-- An insertion at byte 0. -/
def atTop (e : Edit) : Bool :=
  e.start == 0 && e.location.length == 0

theorem atTop_iff : e.atTop = true ↔ e.start = 0 ∧ e.location.length = 0 := by
  simp [atTop]

theorem exists_first_top (h : ¬∀ x ∈ edits, x.atTop = false) :
    ∃ earlier x later, edits = earlier ++ x :: later ∧ x.atTop = true ∧
      ∀ y ∈ earlier, y.atTop = false := by
  cases hfind : edits.find? atTop with
  | none =>
    rw [List.find?_eq_none] at hfind
    exact absurd (fun x hx => Bool.eq_false_iff.2 (hfind x hx)) h
  | some x =>
    obtain ⟨hx, earlier, later, hsplit, hearlier⟩ := List.find?_eq_some_iff_append.1 hfind
    exact ⟨earlier, x, later, hsplit, hx, fun y hy => by simpa using hearlier y hy⟩

theorem stop_eq_zero (he : e.atTop = true) : e.stop = 0 := by
  obtain ⟨hs, hl⟩ := atTop_iff.1 he
  rw [stop_eq, hs, hl]

theorem fits_of_atTop (he : e.atTop = true) (chars : List Char) : e.fits chars = true := by
  rw [fits_iff, (atTop_iff.1 he).1, stop_eq_zero he]
  exact ⟨Nat.zero_le _, isBoundary_zero _, isBoundary_zero _⟩

/-- An insertion at byte 0 puts its text in front of everything else. -/
theorem weave_top (he : e.atTop = true) (chars : List Char) (es : List Edit) :
    weave chars 0 (e :: es) = e.newText.toList ++ weave chars 0 es := by
  rw [weave_cons, stopIn_of_fits (fits_of_atTop he chars), stop_eq_zero he, (atTop_iff.1 he).1]
  simp [slice?]

/-- **The first one of the insertions at byte 0 is accepted first.** -/
theorem accepted_of_top (content : String) {earlier : List Edit} (later : List Edit)
    (he : e.atTop = true) (hearlier : ∀ x ∈ earlier, x.atTop = false) :
    ∃ rest, accepted content (earlier ++ e :: later) = e :: rest := by
  obtain ⟨hs, hl⟩ := atTop_iff.1 he
  obtain ⟨rest, hord⟩ : ∃ rest, ordered (earlier ++ e :: later) = e :: rest := by
    apply ordered_eq_cons
    · intro x _; rw [precedes_iff]; omega
    · intro x hx
      have hx0 := hearlier x hx
      rw [Bool.eq_false_iff] at hx0 ⊢
      exact fun h => hx0 (atTop_iff.2 (by rw [precedes_iff] at h; omega))
  have hfits := fits_of_atTop he content.toList
  refine ⟨(select content.toList e.stop rest).1, ?_⟩
  unfold accepted
  rw [hord, select_cons_of_fits hfits (Nat.zero_le _)]

/-- What a batch puts in front of an edit when it accepts the edits in `before` earlier: the text in
front of the edit with those edits in place. -/
def inFront (content : String) (before : List Edit) (e : Edit) : List Char :=
  weave ((upTo? e.start content.toList).getD []) 0 before

/-- **The new text around an accepted edit.** -/
theorem applyAll_content_split (h : accepted content edits = before ++ e :: after) :
    ∃ rest, (applyAll content edits).content =
      String.ofList (inFront content before e ++ (e.newText.toList ++ rest)) := by
  have htaken : Taken content.toList 0 (before ++ e :: after) := h ▸ accepted_taken content edits
  have hin := htaken.inBounds e (List.mem_append_right before List.mem_cons_self)
  obtain ⟨front, back, hsplit, hw⟩ := isBoundary_iff.1 (inBounds_iff.1 hin).2.1
  have hfront : inFront content before e = weave front 0 before := by
    unfold inFront; rw [hsplit, ← hw, upTo?_append, Option.getD_some]
  rw [applyAll_content, h, hfront]
  rw [hsplit] at htaken ⊢
  exact ⟨_, by rw [weave_split (isBoundary_zero _) hw htaken]⟩

end RubyLint.Edit
