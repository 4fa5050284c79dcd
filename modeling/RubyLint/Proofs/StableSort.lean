import Mathlib.Data.List.Basic
import Mathlib.Tactic.Common

/-!
# What a stable sort is

A stable sort puts a list in order and leaves entries that compare as equal as they were listed. These
two facts say all there is to say about its outcome, so two ways to sort can be compared without a
look at how they work.

* `filter_mergeSort`: **entries that compare as equal keep their order.**
* `eq_of_ties`: lists in order agree if they agree on the entries tied with each one.
* `mergeSort_eq_of_ties`: **the outcome of a stable sort**; `mergeSort_flatMap`: that of lists in a row.
-/

namespace RubyLint

variable {α : Type} {le : α → α → Bool} {l l' : List α}

/-- Two entries compare as equal. -/
def tied (le : α → α → Bool) (a b : α) : Bool :=
  le a b && le b a

theorem tied_iff {a b : α} : tied le a b = true ↔ le a b = true ∧ le b a = true := by
  unfold tied
  rw [Bool.and_eq_true]

theorem tied_self (total : ∀ a b, (le a b || le b a) = true) (a : α) : tied le a a = true := by
  have h := total a a
  rw [Bool.or_self] at h
  exact tied_iff.2 ⟨h, h⟩

/-- **Entries that compare as equal keep their order**: a choice of such entries is the same before
and after. -/
theorem filter_mergeSort (trans : ∀ a b c, le a b = true → le b c = true → le a c = true)
    (total : ∀ a b, (le a b || le b a) = true) {p : α → Bool}
    (hp : ∀ a ∈ l, ∀ b ∈ l, p a = true → p b = true → le a b = true) :
    (l.mergeSort le).filter p = l.filter p := by
  have hsorted : (l.filter p).Pairwise fun a b => le a b = true := by
    apply List.pairwise_of_forall_mem_list
    intro a ha b hb
    obtain ⟨ha, hpa⟩ := List.mem_filter.1 ha
    obtain ⟨hb, hpb⟩ := List.mem_filter.1 hb
    exact hp a ha b hb hpa hpb
  have hsub := (List.sublist_mergeSort trans total hsorted List.filter_sublist).filter p
  rw [List.filter_filter] at hsub
  simp only [Bool.and_self] at hsub
  have hlength := ((List.mergeSort_perm l le).filter p).length_eq
  exact (hsub.eq_of_length hlength.symm).symm

/-- The entries tied with one keep their order. -/
theorem filter_tied_mergeSort (trans : ∀ a b c, le a b = true → le b c = true → le a c = true)
    (total : ∀ a b, (le a b || le b a) = true) (l : List α) (a : α) :
    (l.mergeSort le).filter (tied le a) = l.filter (tied le a) := by
  apply filter_mergeSort trans total
  intro b _ c _ hb hc
  exact trans b a c (tied_iff.1 hb).2 (tied_iff.1 hc).1

/-- The first entry of a list in order is at most every entry of it. -/
theorem le_of_pairwise_cons (total : ∀ a b, (le a b || le b a) = true) {a b : α}
    (h : (a :: l).Pairwise fun x y => le x y = true) (hb : b ∈ a :: l) : le a b = true := by
  rcases List.mem_cons.1 hb with rfl | hb
  · exact (tied_iff.1 (tied_self total b)).1
  · exact (List.pairwise_cons.1 h).1 b hb

theorem mem_of_ties (total : ∀ a b, (le a b || le b a) = true)
    (h : ∀ a, l.filter (tied le a) = l'.filter (tied le a)) {a : α} (ha : a ∈ l) : a ∈ l' := by
  have hmem : a ∈ l.filter (tied le a) := List.mem_filter.2 ⟨ha, tied_self total a⟩
  rw [h a] at hmem
  exact List.mem_of_mem_filter hmem

/-- **Lists in order agree** if, for every entry, they list the entries tied with it alike. -/
theorem eq_of_ties (total : ∀ a b, (le a b || le b a) = true)
    (hl : l.Pairwise fun a b => le a b = true) (hl' : l'.Pairwise fun a b => le a b = true)
    (h : ∀ a, l.filter (tied le a) = l'.filter (tied le a)) : l = l' := by
  induction l generalizing l' with
  | nil =>
    cases l' with
    | nil => rfl
    | cons b bs =>
      have hb := mem_of_ties total (fun a => (h a).symm) (List.mem_cons_self (a := b) (l := bs))
      exact absurd hb List.not_mem_nil
  | cons a as ih =>
    cases l' with
    | nil => exact absurd (mem_of_ties total h List.mem_cons_self) List.not_mem_nil
    | cons b bs =>
      -- each head is at most the other, so both come first among the entries tied with them
      have hab : le a b = true := le_of_pairwise_cons total hl
        (mem_of_ties total (fun c => (h c).symm) List.mem_cons_self)
      have hba : le b a = true := le_of_pairwise_cons total hl'
        (mem_of_ties total h List.mem_cons_self)
      have hties := h a
      rw [List.filter_cons_of_pos (tied_self total a),
        List.filter_cons_of_pos (tied_iff.2 ⟨hab, hba⟩)] at hties
      obtain rfl : a = b := (List.cons.inj hties).1
      have hrest : ∀ c, as.filter (tied le c) = bs.filter (tied le c) := by
        intro c
        have hc := h c
        by_cases htied : tied le c a = true
        · rw [List.filter_cons_of_pos htied, List.filter_cons_of_pos htied] at hc
          exact (List.cons.inj hc).2
        · rw [List.filter_cons_of_neg htied, List.filter_cons_of_neg htied] at hc
          exact hc
      rw [ih (List.pairwise_cons.1 hl).2 (List.pairwise_cons.1 hl').2 hrest]

/-- **The outcome of a stable sort** is the list in order in which, for every entry, the entries tied
with it stand as they were listed. -/
theorem mergeSort_eq_of_ties (trans : ∀ a b c, le a b = true → le b c = true → le a c = true)
    (total : ∀ a b, (le a b || le b a) = true) (hl' : l'.Pairwise fun a b => le a b = true)
    (h : ∀ a, l.filter (tied le a) = l'.filter (tied le a)) : l.mergeSort le = l' := by
  apply eq_of_ties total (List.pairwise_mergeSort trans total l) hl'
  intro a
  rw [filter_tied_mergeSort trans total, h]

/-- **Lists in a row are sorted one by one**, if no entry of one is above an entry of a later one. -/
theorem mergeSort_flatMap {ι : Type} {f : ι → List α} {is : List ι}
    (trans : ∀ a b c, le a b = true → le b c = true → le a c = true)
    (total : ∀ a b, (le a b || le b a) = true)
    (h : is.Pairwise fun i j => ∀ a ∈ f i, ∀ b ∈ f j, le a b = true) :
    (is.flatMap f).mergeSort le = is.flatMap fun i => (f i).mergeSort le := by
  apply mergeSort_eq_of_ties trans total
  · refine List.pairwise_flatMap.2 ⟨fun i _ => List.pairwise_mergeSort trans total (f i), ?_⟩
    apply h.imp
    intro i j hle a ha b hb
    exact hle a (List.mem_mergeSort.1 ha) b (List.mem_mergeSort.1 hb)
  · intro a
    rw [List.filter_flatMap, List.filter_flatMap]
    simp only [filter_tied_mergeSort trans total]

end RubyLint
