import Mathlib
import RubyLint.Proofs.Batch

/-!
# A batch means what its edits mean

A batch copies the text once, forwards, and puts the accepted edits in on the way. The result is
the one of making the same edits one at a time, the last one first, so that none of them moves a
range that is still to be replaced. All that stands against it is an accepted edit whose end wraps
around: the batch then goes on from an offset in front of the edit, and copies a stretch again.

* `splice?`, `spliceAll?`: one edit, and several from the last to the first.
* `Woven`: the new text beside the old one, stretch by stretch.
* `Fitting`: edits that fit and follow one another; `Fitting.woven`: they are woven into the text.
* `Woven.spliceAll?_eq`, `Woven.width_eq`: what follows for splices and for the length.
* `Taken.weave?_eq`: the slices that a batch takes are there.
* `applyAll_of_woven`: edits that are woven into a text all apply, and give the woven text.
* `MeansSplices`: a batch is its accepted edits, one at a time; `meansSplices_iff`: **a batch is its
  accepted edits exactly when the end of none of them wraps around.**
-/

namespace RubyLint.Edit

open Text

variable {content : String} {chars old new : List Char} {cursor : Nat} {e : Edit}
  {edits es before after : List Edit}

/-- The text with one edit made; none if the range of the edit is not one of whole characters
inside the text. -/
def splice? (e : Edit) (chars : List Char) : Option (List Char) := do
  let front ← upTo? e.start chars
  let back ← from? e.stop chars
  return front ++ (e.newText.toList ++ back)

/-- The text with edits made one at a time, the last one first. -/
def spliceAll? (chars : List Char) : List Edit → Option (List Char)
  | [] => some chars
  | e :: es => (spliceAll? chars es).bind e.splice?

/-- Bytes with those of an edit's range replaced by the bytes of its text. -/
def spliceBytes (e : Edit) (bs : List UInt8) : List UInt8 :=
  bs.take e.start ++ (bytes e.newText.toList ++ bs.drop e.stop)

/-- `weave` that fails when a stretch of text that it copies is not there: when it ends before it
starts or past the text, or when an end of it is inside a character. -/
def weave? (chars : List Char) : Nat → List Edit → Option (List Char)
  | cursor, [] => from? cursor chars
  | cursor, e :: es => do
    let kept ← slice? cursor e.start chars
    let rest ← weave? chars (e.stopIn chars) es
    return kept ++ (e.newText.toList ++ rest)

/-- **The new text beside the old one**, both from byte `cursor` of the old text on: what is between
the ranges of the edits is kept, and each range is replaced by the text of its edit. -/
inductive Woven : Nat → List Edit → List Char → List Char → Prop
  | done (cursor : Nat) (rest : List Char) : Woven cursor [] rest rest
  | edit {cursor : Nat} {e : Edit} {es : List Edit} {old new : List Char} (kept removed : List Char)
      (start : cursor + width kept = e.start) (length : width removed = e.location.length)
      (rest : Woven e.stop es old new) :
      Woven cursor (e :: es) (kept ++ (removed ++ old)) (kept ++ (e.newText.toList ++ new))

/-- Edits that fit a text, each of which starts no earlier than the one before it ends and the first
of which starts no earlier than `cursor`. -/
def Fitting (chars : List Char) : Nat → List Edit → Prop
  | _, [] => True
  | cursor, e :: es => cursor ≤ e.start ∧ e.fits chars = true ∧ Fitting chars e.stop es

theorem Fitting.le_start (h : Fitting chars cursor (before ++ e :: after)) : cursor ≤ e.start := by
  induction before generalizing cursor with
  | nil => exact h.1
  | cons x before ih =>
    have hx := ih h.2.2
    have := h.1
    have := x.start_le_stop
    omega

/-- Accepted edits fit if the end of none of them wraps around. -/
theorem Taken.fitting (h : Taken chars cursor es) (hwraps : ∀ e ∈ es, ¬e.Wraps chars) :
    Fitting chars cursor es := by
  induction es generalizing cursor with
  | nil => trivial
  | cons e es ih =>
    obtain ⟨hcursor, hin, -, hrest⟩ := h
    obtain ⟨hnot, hwraps⟩ := List.forall_mem_cons.1 hwraps
    have hfits := fits_of_inBounds hin hnot
    rw [stopIn_of_fits hfits] at hrest
    exact ⟨hcursor, hfits, ih hrest hwraps⟩

/-- What lies in front of the end of an edit: up to `cursor`, then what is kept and what is removed. -/
theorem width_front {e : Edit} {front kept removed : List Char} (hfront : width front = cursor)
    (hstart : cursor + width kept = e.start) (hlength : width removed = e.location.length) :
    width (front ++ (kept ++ removed)) = e.stop := by
  rw [stop_eq, width_append, width_append]
  omega

/-- An edit that fits a text and starts no earlier than the end of `front` splits what follows. -/
theorem exists_split_of_fits {e : Edit} {front : List Char} (hcursor : width front ≤ e.start)
    (hfits : e.fits (front ++ old) = true) :
    ∃ kept removed rest, old = kept ++ (removed ++ rest) ∧
      width front + width kept = e.start ∧ width removed = e.location.length := by
  obtain ⟨-, hstart, hstop⟩ := fits_iff.1 hfits
  obtain ⟨l, removed, rest, hsplit, hl, hr⟩ := exists_split hstart hstop e.start_le_stop
  have hremoved : width removed = e.location.length := by rw [stop_eq] at hr; omega
  rcases List.append_eq_append_iff.1 hsplit with ⟨kept, rfl, rfl⟩ | ⟨kept, rfl, hrest⟩
  · exact ⟨kept, removed, rest, rfl, by rw [← hl, width_append], hremoved⟩
  · -- the edit starts right at the end of the front
    have hkept : kept = [] := width_eq_zero (by rw [width_append] at hcursor; omega)
    subst hkept
    refine ⟨[], removed, rest, hrest.symm, ?_, hremoved⟩
    rw [List.append_nil]
    exact hl

/-- **What a batch makes of a text** from the end of `front` on, stretch by stretch. -/
theorem Fitting.woven (front : List Char) (h : Fitting (front ++ old) (width front) es) :
    Woven (width front) es old (weave (front ++ old) (width front) es) := by
  induction es generalizing front old with
  | nil => rw [weave_nil, from?_append]; exact .done _ _
  | cons e es ih =>
    obtain ⟨hcursor, hfits, hrest⟩ := h
    obtain ⟨kept, removed, rest, rfl, hstart, hlength⟩ := exists_split_of_fits hcursor hfits
    have hslice : slice? (width front) e.start (front ++ (kept ++ (removed ++ rest))) = some kept :=
      hstart ▸ slice?_middle front kept (removed ++ rest)
    have hstop := width_front rfl hstart hlength
    -- past the edit, the front has grown by what was kept and what was removed
    have hgrown : front ++ (kept ++ (removed ++ rest)) = front ++ (kept ++ removed) ++ rest := by
      simp
    rw [weave_cons, hslice, Option.getD_some, stopIn_of_fits hfits]
    refine .edit kept removed hstart hlength ?_
    rw [hgrown, ← hstop] at hrest ⊢
    exact ih _ hrest

/-- **All stretches that a batch copies are there**, wherever it takes its edits to end. -/
theorem Taken.weave?_eq (hcursor : isBoundary cursor chars = true) (h : Taken chars cursor es) :
    weave? chars cursor es = some (weave chars cursor es) := by
  induction es generalizing cursor with
  | nil =>
    obtain ⟨l, r, rfl, rfl⟩ := isBoundary_iff.1 hcursor
    rw [weave?, weave_nil, from?_append]
    rfl
  | cons e es ih =>
    obtain ⟨hle, hin, -, hrest⟩ := h
    obtain ⟨-, hstart, hstop⟩ := inBounds_iff.1 hin
    obtain ⟨l, k, r, hsplit, hl, hk⟩ := exists_split hcursor hstart hle
    have hslice : slice? cursor e.start chars = some k := by
      rw [hsplit, ← hl, ← hk]
      exact slice?_middle l k r
    rw [weave?, weave_cons, hslice, ih hstop hrest]
    rfl

/-- **Splices from the last to the first** give the woven text: the later ones leave the front alone,
so each finds its own range where it was. -/
theorem Woven.spliceAll?_eq (h : Woven cursor es old new) (front : List Char)
    (hfront : width front = cursor) :
    spliceAll? (front ++ old) es = some (front ++ new) := by
  induction h generalizing front with
  | done cursor rest => rfl
  | @edit cursor e es old new kept removed start length rest ih =>
    have hstart : width (front ++ kept) = e.start := by rw [width_append]; omega
    have hstop := width_front hfront start length
    have hrest := ih _ hstop
    have hcut : upTo? e.start (front ++ (kept ++ removed) ++ new) = some (front ++ kept) :=
      upTo?_eq_some_iff.2 ⟨removed ++ new, by simp, hstart⟩
    have hback : from? e.stop (front ++ (kept ++ removed) ++ new) = some new :=
      from?_eq_some_iff.2 ⟨_, rfl, hstop⟩
    have hold : front ++ (kept ++ (removed ++ old)) = front ++ (kept ++ removed) ++ old := by simp
    rw [spliceAll?, hold, hrest, Option.bind_some, splice?, hcut, hback]
    simp

/-- Text in front of the first edit is kept. -/
theorem Woven.copy (kept : List Char) (h : Woven (cursor + width kept) es old new) :
    Woven cursor es (kept ++ old) (kept ++ new) := by
  generalize hcursor : cursor + width kept = next at h
  cases h with
  | done => exact .done cursor _
  | edit between removed start length rest =>
    rw [← List.append_assoc kept, ← List.append_assoc kept]
    refine .edit (kept ++ between) removed ?_ length rest
    rw [width_append]
    omega

/-- Woven edits fit the text and follow one another. -/
theorem Woven.fitting (h : Woven cursor es old new) (front : List Char)
    (hfront : width front = cursor) : Fitting (front ++ old) cursor es := by
  induction h generalizing front with
  | done => trivial
  | @edit cursor e es old new kept removed start length rest ih =>
    have hstop := width_front hfront start length
    have hsplit : front ++ (kept ++ (removed ++ old)) = front ++ (kept ++ removed) ++ old := by simp
    have hstart : isBoundary e.start (front ++ (kept ++ (removed ++ old))) = true :=
      isBoundary_iff.2 ⟨front ++ kept, removed ++ old, by simp, by rw [width_append]; omega⟩
    refine ⟨by omega, fits_iff.2 ⟨?_, hstart, ?_⟩, ?_⟩
    · rw [hsplit, width_append, hstop]
      exact Nat.le_add_right _ _
    · rw [hsplit, ← hstop]
      exact isBoundary_width _ old
    · rw [hsplit]
      exact ih _ hstop

theorem Fitting.pairwise (h : Fitting chars cursor es) :
    (∀ e ∈ es, e.fits chars = true) ∧ es.Pairwise fun a b => a.stop ≤ b.start := by
  induction es generalizing cursor with
  | nil => exact ⟨List.forall_mem_nil _, List.Pairwise.nil⟩
  | cons e es ih =>
    obtain ⟨-, hfits, hrest⟩ := h
    obtain ⟨hall, hpairwise⟩ := ih hrest
    refine ⟨List.forall_mem_cons.2 ⟨hfits, hall⟩, List.pairwise_cons.2 ⟨fun x hx => ?_, hpairwise⟩⟩
    obtain ⟨before, after, rfl⟩ := List.append_of_mem hx
    exact hrest.le_start

/-- **Edits woven into a text all apply**, and the batch gives the woven text. -/
theorem applyAll_of_woven (h : Woven 0 es content.toList new) :
    applyAll content es = ⟨String.ofList new, es.length, 0⟩ := by
  have hfitting : Fitting content.toList 0 es := h.fitting [] rfl
  obtain ⟨hfits, hpairwise⟩ := hfitting.pairwise
  obtain ⟨happlied, hconflicts⟩ := applyAll_of_pairwise hfits hpairwise
  have haccepted : accepted content es = es := by
    unfold accepted
    rw [ordered_of_pairwise hpairwise,
      select_of_pairwise hfits (fun e _ => Nat.zero_le e.start) hpairwise]
  have hwoven : Woven 0 es content.toList (weave content.toList 0 es) :=
    Fitting.woven [] hfitting
  have hnew : weave content.toList 0 es = new :=
    Option.some.inj ((hwoven.spliceAll?_eq [] rfl).symm.trans (h.spliceAll?_eq [] rfl))
  have hcontent := applyAll_content content es
  rw [haccepted, hnew] at hcontent
  rw [← hcontent, ← happlied, ← hconflicts]

/-- A splice of characters is the splice of their bytes. -/
theorem bytes_splice? {e : Edit} (h : e.splice? old = some new) :
    bytes new = e.spliceBytes (bytes old) := by
  unfold splice? at h
  simp only [Option.bind_eq_bind, Option.bind_eq_some_iff, Option.pure_def, Option.some.injEq] at h
  obtain ⟨front, hfront, back, hback, rfl⟩ := h
  obtain ⟨rest, rfl, hstart⟩ := upTo?_eq_some_iff.1 hfront
  obtain ⟨removed, hsplit, hstop⟩ := from?_eq_some_iff.1 hback
  have htake : (bytes (front ++ rest)).take e.start = bytes front := by
    rw [bytes_append, ← hstart, ← length_bytes, List.take_left]
  have hdrop : (bytes (front ++ rest)).drop e.stop = bytes back := by
    rw [hsplit, bytes_append, ← hstop, ← length_bytes, List.drop_left]
  rw [spliceBytes, htake, hdrop, bytes_append, bytes_append]

theorem bytes_spliceAll? (h : spliceAll? old es = some new) :
    bytes new = es.foldr spliceBytes (bytes old) := by
  induction es generalizing new with
  | nil => cases h; rfl
  | cons e es ih =>
    obtain ⟨mid, hmid, hnew⟩ := Option.bind_eq_some_iff.1 h
    rw [bytes_splice? hnew, ih hmid]
    rfl

/-- Old and new text differ in length by what is removed and what is written. -/
theorem Woven.width_eq (h : Woven cursor es old new) :
    width new + (es.map (·.location.length)).sum =
      width old + (es.map fun e => width e.newText.toList).sum := by
  induction h with
  | done cursor rest => rfl
  | edit kept removed start length rest ih =>
    simp only [width_append, List.map_cons, List.sum_cons]
    omega

/-- **A batch is its accepted edits, one at a time.** The new text is the old one with the accepted
edits made from the last to the first, character by character and byte by byte; between their
ranges everything is kept; the length changes by what is removed and written; and neither the batch
nor a single edit cuts the text at a place that is not there. -/
structure MeansSplices (content : String) (edits : List Edit) : Prop where
  applied_eq : (applyAll content edits).applied = (accepted content edits).length
  splices : spliceAll? content.toList (accepted content edits) =
    some (applyAll content edits).content.toList
  bytes_eq : bytes (applyAll content edits).content.toList =
    (accepted content edits).foldr spliceBytes (bytes content.toList)
  woven : Woven 0 (accepted content edits) content.toList (applyAll content edits).content.toList
  width_eq : width (applyAll content edits).content.toList +
      ((accepted content edits).map (·.location.length)).sum =
    width content.toList + ((accepted content edits).map fun e => width e.newText.toList).sum
  slices : weave? content.toList 0 (accepted content edits) =
    some (applyAll content edits).content.toList

theorem weave?_accepted (content : String) (edits : List Edit) :
    weave? content.toList 0 (accepted content edits) =
      some (applyAll content edits).content.toList := by
  rw [(accepted_taken content edits).weave?_eq (isBoundary_zero _), applyAll_content,
    String.toList_ofList]

theorem meansSplices_of_not_wraps (h : ∀ e ∈ accepted content edits, ¬e.Wraps content.toList) :
    MeansSplices content edits := by
  have hwoven : Woven 0 (accepted content edits) content.toList
      (applyAll content edits).content.toList := by
    rw [applyAll_content, String.toList_ofList]
    exact Fitting.woven [] ((accepted_taken content edits).fitting h)
  have hsplices := hwoven.spliceAll?_eq [] rfl
  exact ⟨rfl, hsplices, bytes_spliceAll? hsplices, hwoven, hwoven.width_eq,
    weave?_accepted content edits⟩

theorem MeansSplices.not_wraps (h : MeansSplices content edits) :
    ∀ e ∈ accepted content edits, ¬e.Wraps content.toList := by
  obtain ⟨hfits, -⟩ := (h.woven.fitting [] rfl).pairwise
  exact fun e he => not_wraps_of_fits (hfits e he)

/-- **A batch is its accepted edits exactly when the end of none of them wraps around.** So it is for
edits whose ends fit in 64 bits. Whether or not it is, the batch counts the edits that it accepts,
each of them fits the text or has an end that wraps around, and all slices that it takes are
there. -/
theorem meansSplices_iff (content : String) (edits : List Edit) :
    (MeansSplices content edits ↔ ∀ e ∈ accepted content edits, ¬e.Wraps content.toList) ∧
    ((∀ e ∈ edits, e.stop < UInt64.size) → MeansSplices content edits) ∧
    (applyAll content edits).applied = (accepted content edits).length ∧
    (∀ e ∈ accepted content edits, e.fits content.toList = true ∨ e.Wraps content.toList) ∧
    weave? content.toList 0 (accepted content edits) =
      some (applyAll content edits).content.toList := by
  refine ⟨⟨MeansSplices.not_wraps, meansSplices_of_not_wraps⟩, fun hsmall => ?_, rfl, ?_,
    weave?_accepted content edits⟩
  · refine meansSplices_of_not_wraps fun e he hwraps => ?_
    exact Nat.not_le.2 (hsmall e (mem_of_mem_accepted he)) hwraps.2
  · exact fun e he => fits_or_wraps ((accepted_taken content edits).inBounds e he)

/-- The edit is accepted at the third letter, and the batch goes on from offset 2: the third letter is
in the new text twice. -/
theorem overlong_not_meansSplices :
    overlong.start < UInt64.size ∧ overlong.location.length < UInt64.size ∧
      applyAll "abcd" [overlong] = ⟨"abcXcd", 1, 0⟩ ∧ ¬MeansSplices "abcd" [overlong] := by
  refine ⟨by decide, by decide, by cbv, fun h => ?_⟩
  exact h.not_wraps overlong overlong_mem_accepted (by decide)

end RubyLint.Edit
