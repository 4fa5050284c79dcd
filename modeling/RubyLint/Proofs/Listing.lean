import Mathlib
import RubyLint.Proofs.Batch
import RubyLint.Proofs.StableSort

/-!
# Listings of edits

A batch sorts its edits before it looks at them, so how they were listed matters only where the sort
leaves it alone: among edits of one range.

* `AgreeByRange`: two listings hold the same edits, and those of one range in the same order.
* `ordered_congr`: such listings are considered in one order.
* `applyAll_listing`: **the order in which edits are listed does not matter.**
-/

namespace RubyLint.Edit

variable {e : Edit} {edits edits' : List Edit} {offset length : Nat}

/-- An edit replaces the range of this offset and length. -/
def hasRange (offset length : Nat) (e : Edit) : Bool :=
  e.location.offset == offset && e.location.length == length

theorem hasRange_iff :
    e.hasRange offset length = true ↔ e.location.offset = offset ∧ e.location.length = length := by
  unfold hasRange
  rw [Bool.and_eq_true, beq_iff_eq, beq_iff_eq]

/-- **Listings that agree range by range**: for every range they list the same edits in the same
order. How edits of different ranges stand to each other is left open. -/
def AgreeByRange (edits edits' : List Edit) : Prop :=
  ∀ offset length, edits.filter (hasRange offset length) = edits'.filter (hasRange offset length)

/-- Only ranges of listed edits have to be looked at. -/
theorem agreeByRange_iff :
    AgreeByRange edits edits' ↔ ∀ e ∈ edits ++ edits',
      edits.filter (hasRange e.location.offset e.location.length) =
        edits'.filter (hasRange e.location.offset e.location.length) := by
  constructor
  · intro h e _
    exact h _ _
  · intro h offset length
    by_cases hlisted : ∃ e ∈ edits ++ edits', e.hasRange offset length = true
    · obtain ⟨e, he, hrange⟩ := hlisted
      obtain ⟨rfl, rfl⟩ := hasRange_iff.1 hrange
      exact h e he
    · have hnone : ∀ e ∈ edits ++ edits', ¬e.hasRange offset length = true :=
        fun e he hrange => hlisted ⟨e, he, hrange⟩
      rw [List.filter_eq_nil_iff.2 fun e he => hnone e (List.mem_append_left _ he),
        List.filter_eq_nil_iff.2 fun e he => hnone e (List.mem_append_right _ he)]

instance (edits edits' : List Edit) : Decidable (AgreeByRange edits edits') :=
  decidable_of_iff _ agreeByRange_iff.symm

/-- Listings that agree range by range are permutations of each other. -/
theorem AgreeByRange.perm (h : AgreeByRange edits edits') : edits.Perm edits' := by
  rw [List.perm_iff_count]
  intro e
  have hself : e.hasRange e.location.offset e.location.length = true := hasRange_iff.2 ⟨rfl, rfl⟩
  rw [← List.count_filter (p := hasRange _ _) (l := edits) hself,
    ← List.count_filter (p := hasRange _ _) (l := edits') hself, h]

/-- The order of a batch takes edits of one range for equal, and no others. -/
theorem tied_precedes (e : Edit) :
    tied precedes e = hasRange e.location.offset e.location.length := by
  funext a
  rw [Bool.eq_iff_iff, tied_iff, precedes_iff, precedes_iff, hasRange_iff]
  unfold start
  omega

/-- Listings that agree range by range are considered in one order. -/
theorem ordered_congr (h : AgreeByRange edits edits') : ordered edits = ordered edits' := by
  apply mergeSort_eq_of_ties precedes_trans precedes_total
  · exact List.pairwise_mergeSort precedes_trans precedes_total edits'
  · intro e
    unfold ordered
    rw [filter_tied_mergeSort precedes_trans precedes_total, tied_precedes, h]

/-- **The order in which edits are listed does not matter.** Listings that agree range by range are
permutations of each other; a batch accepts the same edits of both, in the same order, and makes the
same text of both, with the same numbers of accepted and refused edits. -/
theorem applyAll_listing (content : String) (h : AgreeByRange edits edits') :
    edits.Perm edits' ∧
      accepted content edits = accepted content edits' ∧
      applyAll content edits = applyAll content edits' := by
  refine ⟨h.perm, ?_, ?_⟩
  · unfold accepted
    rw [ordered_congr h]
  · unfold applyAll
    rw [ordered_congr h]

/-- An edit of a range of a file. -/
def ofRange (offset length : Nat) (newText : String) : Edit :=
  ⟨{ file := ⟨"a.rb"⟩, line := 1, column := offset + 1, offset, length }, newText⟩

/-- Two insertions at one offset, two edits that overlap, and one apart from them. -/
def mixedListing : List Edit :=
  [ofRange 5 1 "C", ofRange 0 0 "x", ofRange 2 1 "O", ofRange 0 0 "y", ofRange 0 3 "A"]

/-- The same edits, listed the other way round but for the two insertions. -/
def turnedListing : List Edit :=
  [ofRange 0 3 "A", ofRange 0 0 "x", ofRange 2 1 "O", ofRange 0 0 "y", ofRange 5 1 "C"]

/-- Both insertions stand at the start as they were listed, and of the edits that overlap the first one is
accepted. -/
theorem applyAll_listing_turned :
    AgreeByRange mixedListing turnedListing ∧
      applyAll "é b c" mixedListing = applyAll "é b c" turnedListing ∧
      applyAll "é b c" turnedListing = ⟨"xyAb C", 4, 1⟩ := by
  have h : AgreeByRange mixedListing turnedListing := by decide
  obtain ⟨-, -, hsame⟩ := applyAll_listing "é b c" h
  refine ⟨h, hsame, ?_⟩
  cbv

end RubyLint.Edit
