import Mathlib.Tactic.SplitIfs
import RubyLint.Text.Bytes

/-!
# Boundaries split a text

An offset is a boundary of a text exactly when it is the width of a first part of it. Cutting at
boundaries is then a matter of splitting lists.

* `from?_eq_some_iff`, `upTo?_eq_some_iff`, `isBoundary_iff`: cuts as splits.
* `exists_split`: two boundaries in order split a text in three.
* `slice?_middle`, `slice?_eq_some_iff`: the slice between them is the middle part.
* `isBoundary_append_left`: the boundaries of a longer text up to the end of a first part are those
  of that part.
* `toNat_of_mem_utf8EncodeChar`: a byte below 128 is a character of its own.
-/

namespace RubyLint.Text

variable {n : Nat} {cs l r : List Char}

theorem width_eq_zero (h : width l = 0) : l = [] := by
  cases l with
  | nil => rfl
  | cons c l => have := c.utf8Size_pos; unfold width at h; omega

theorem bytes_cons (c : Char) (cs : List Char) :
    bytes (c :: cs) = String.utf8EncodeChar c ++ bytes cs := rfl

/-- A byte below 128 stands for a character of its own. -/
theorem toNat_of_mem_utf8EncodeChar {b : UInt8} {c : Char} (h : b ∈ String.utf8EncodeChar c)
    (hb : b.toNat < 128) : c.toNat = b.toNat := by
  have hval : c.val.toNat = c.toNat := rfl
  unfold String.utf8EncodeChar at h
  simp only [hval] at h
  split_ifs at h <;> simp only [List.mem_cons, List.not_mem_nil, or_false] at h
  · rw [h, UInt8.toNat_ofNat']
    omega
  · rcases h with rfl | rfl <;> rw [UInt8.toNat_ofNat'] at hb <;> omega
  · rcases h with rfl | rfl | rfl <;> rw [UInt8.toNat_ofNat'] at hb <;> omega
  · rcases h with rfl | rfl | rfl | rfl <;> rw [UInt8.toNat_ofNat'] at hb <;> omega

theorem bytes_append (l r : List Char) : bytes (l ++ r) = bytes l ++ bytes r := by
  unfold bytes; exact List.flatMap_append

/-- What follows an offset is what follows a first part of that width. -/
theorem from?_eq_some_iff : from? n cs = some r ↔ ∃ l, cs = l ++ r ∧ width l = n := by
  constructor
  · intro h
    induction cs generalizing n with
    | nil =>
      cases n with
      | zero => exact ⟨[], by simpa using h, rfl⟩
      | succ n => simp [from?] at h
    | cons c cs ih =>
      cases n with
      | zero => exact ⟨[], by simpa using h, rfl⟩
      | succ n =>
        unfold from? at h
        split at h
        · obtain ⟨l, rfl, hw⟩ := ih h
          exact ⟨c :: l, rfl, by unfold width; omega⟩
        · cases h
  · rintro ⟨l, rfl, rfl⟩
    exact from?_append l r

/-- What precedes an offset is a first part of that width. -/
theorem upTo?_eq_some_iff : upTo? n cs = some l ↔ ∃ r, cs = l ++ r ∧ width l = n := by
  constructor
  · intro h
    induction cs generalizing n l with
    | nil =>
      cases n with
      | zero => exact ⟨[], by simpa using h, by simp at h; subst h; rfl⟩
      | succ n => simp [upTo?] at h
    | cons c cs ih =>
      cases n with
      | zero => simp at h; subst h; exact ⟨c :: cs, rfl, rfl⟩
      | succ n =>
        unfold upTo? at h
        split at h
        · obtain ⟨l, hl, rfl⟩ := Option.map_eq_some_iff.1 h
          obtain ⟨r, rfl, hw⟩ := ih hl
          exact ⟨r, rfl, by unfold width; omega⟩
        · cases h
  · rintro ⟨r, rfl, rfl⟩
    exact upTo?_append l r

/-- A boundary is the width of a first part. -/
theorem isBoundary_iff : isBoundary n cs = true ↔ ∃ l r, cs = l ++ r ∧ width l = n := by
  unfold isBoundary
  rw [Option.isSome_iff_exists]
  constructor
  · rintro ⟨r, h⟩; obtain ⟨l, hl⟩ := from?_eq_some_iff.1 h; exact ⟨l, r, hl⟩
  · rintro ⟨l, r, hl⟩; exact ⟨r, from?_eq_some_iff.2 ⟨l, hl⟩⟩

@[simp]
theorem isBoundary_zero (cs : List Char) : isBoundary 0 cs = true := by
  simp [isBoundary]

theorem isBoundary_width (l r : List Char) : isBoundary (width l) (l ++ r) = true :=
  isBoundary_iff.2 ⟨l, r, rfl, rfl⟩

/-- Up to the end of a first part, the boundaries of a text are those of that part. -/
theorem isBoundary_append_left (h : isBoundary n (l ++ r) = true) (hn : n ≤ width l) :
    isBoundary n l = true := by
  obtain ⟨l', r', hsplit, rfl⟩ := isBoundary_iff.1 h
  rcases List.append_eq_append_iff.1 hsplit with ⟨m, rfl, -⟩ | ⟨m, rfl, -⟩
  · have hm : m = [] := width_eq_zero (by rw [width_append] at hn; omega)
    subst hm; rw [List.append_nil]
    exact isBoundary_iff.2 ⟨l, [], by simp, rfl⟩
  · exact isBoundary_width l' m

/-- Two boundaries in order split a text in three. -/
theorem exists_split {m : Nat} (hm : isBoundary m cs = true) (hn : isBoundary n cs = true)
    (hmn : m ≤ n) : ∃ l k r, cs = l ++ (k ++ r) ∧ width l = m ∧ width l + width k = n := by
  obtain ⟨l', r, rfl, rfl⟩ := isBoundary_iff.1 hn
  obtain ⟨l, k, rfl, rfl⟩ := isBoundary_iff.1 (isBoundary_append_left hm hmn)
  exact ⟨l, k, r, by rw [List.append_assoc], rfl, by rw [width_append]⟩

/-- The slice between two boundaries is the part between them. -/
theorem slice?_middle (l k r : List Char) :
    slice? (width l) (width l + width k) (l ++ (k ++ r)) = some k := by
  unfold slice?
  rw [if_pos (by omega), from?_append, Option.bind_some, Nat.add_sub_cancel_left, upTo?_append]

/-- A slice is the middle one of three parts of a text. -/
theorem slice?_eq_some_iff {m : Nat} {k : List Char} :
    slice? m n cs = some k ↔
      ∃ l r, cs = l ++ (k ++ r) ∧ width l = m ∧ width l + width k = n := by
  constructor
  · intro h
    unfold slice? at h
    split at h
    · rename_i hmn
      obtain ⟨back, hback, hk⟩ := Option.bind_eq_some_iff.1 h
      obtain ⟨l, rfl, hl⟩ := from?_eq_some_iff.1 hback
      obtain ⟨r, rfl, hr⟩ := upTo?_eq_some_iff.1 hk
      exact ⟨l, r, rfl, hl, by omega⟩
    · cases h
  · rintro ⟨l, r, rfl, rfl, rfl⟩
    exact slice?_middle l k r

end RubyLint.Text
