import Mathlib.Data.List.Basic
import RubyLint.Path
import RubyLint.Proofs.Pieces

/-!
# Paths in order

Paths compare by their components, and this comparison is a total order of the places that they
name: two paths that come out as equal have the same components, though they may be written
differently. An entry of a directory has the components of the directory and one more.

* `Path.compare_eq_iff`: **paths compare as equal exactly when their components are the same**; the
  instance of `Std.TransCmp` makes the comparison a total order.
* `Path.IsName`: a text that names an entry of a directory.
* `Path.anchored_join`, `Path.components_join`: the path of an entry.
-/

namespace RubyLint

namespace Path

namespace Component

/-- The characters of a named entry. -/
def characters : Component → String
  | .name text => text
  | _ => ""

/-- Components compare by kind and then by characters, since only named ones have any. -/
theorem compare_eq_compareLex :
    Component.compare = compareLex (compareOn rank) (compareOn characters) := by
  funext a b
  cases a <;> cases b <;> rfl

instance : Std.TransCmp Component.compare := by
  rw [compare_eq_compareLex]
  infer_instance

instance : Std.LawfulEqCmp Component.compare where
  eq_of_compare {a b} h := by
    cases a <;> cases b <;> simp_all [Component.compare, rank]

end Component

theorem compareComponents_eq_compareLex :
    compareComponents = List.compareLex Component.compare := by
  funext as bs
  induction as generalizing bs with
  | nil => cases bs <;> rfl
  | cons a as ih =>
    cases bs with
    | nil => rfl
    | cons b bs => rw [compareComponents, List.compareLex_cons_cons, ih]

instance : Std.TransCmp compareComponents := by
  rw [compareComponents_eq_compareLex]
  infer_instance

instance : Std.LawfulEqCmp compareComponents := by
  rw [compareComponents_eq_compareLex]
  infer_instance

instance : Std.TransCmp Path.compare where
  eq_swap := by
    unfold Path.compare
    exact Std.OrientedCmp.eq_swap
  isLE_trans := by
    unfold Path.compare
    exact Std.TransCmp.isLE_trans

/-- **Paths compare as equal exactly when their components are the same.** -/
theorem compare_eq_iff {p q : Path} : p.compare q = .eq ↔ p.components = q.components := by
  unfold Path.compare
  exact Std.LawfulEqCmp.compare_eq_iff_eq

theorem compare_le_trans (p q r : Path) (hpq : (p.compare q).isLE = true)
    (hqr : (q.compare r).isLE = true) : (p.compare r).isLE = true :=
  Std.TransCmp.isLE_trans hpq hqr

theorem compare_le_total (p q : Path) : ((p.compare q).isLE || (q.compare p).isLE) = true := by
  have hswap : q.compare p = (p.compare q).swap := Std.OrientedCmp.eq_swap
  rw [hswap]
  cases p.compare q <;> rfl

/-- A text names an entry of a directory: it is one component of a path, and not the way up. -/
structure IsName (name : String) : Prop where
  not_idle : isIdle name = false
  ne_parent : name ≠ ".."
  no_slash : '/' ∉ name.toList

instance (name : String) : Decidable (IsName name) :=
  decidable_of_iff (isIdle name = false ∧ name ≠ ".." ∧ '/' ∉ name.toList)
    ⟨fun h => ⟨h.1, h.2.1, h.2.2⟩, fun h => ⟨h.not_idle, h.ne_parent, h.no_slash⟩⟩

variable {dir : Path} {name : String} {rest : List String}

theorem IsName.component? (h : IsName name) : component? name = some (.name name) := by
  unfold Path.component?
  rw [h.not_idle]
  simp [h.ne_parent]

/-- The parts of a path that starts at `/`. -/
theorem anchored_of_parts {p : Path} (h : p.parts = "" :: rest) (hne : rest ≠ []) :
    p.anchored = (.root, rest) := by
  unfold anchored
  cases rest with
  | nil => exact absurd rfl hne
  | cons part rest => rw [h]; rfl

theorem parts_of_anchored {p : Path} (h : p.anchored = (.root, rest)) :
    p.parts = "" :: rest ∧ rest ≠ [] := by
  unfold anchored at h
  split at h
  · cases h
  · rename_i hne hparts
    cases h
    exact ⟨hparts, hne⟩
  · cases h
  · cases h

theorem anchored_of_isAbsolute {p : Path} (h : p.isAbsolute = true) :
    p.anchored = (.root, p.anchored.2) :=
  Prod.ext (of_decide_eq_true h) rfl

theorem IsName.parts (h : IsName name) : (⟨name⟩ : Path).parts = [name] := by
  unfold Path.parts
  rw [Text.splitAll_of_not_mem h.no_slash]
  simp

theorem IsName.not_isAbsolute (h : IsName name) : (⟨name⟩ : Path).isAbsolute = false := by
  unfold isAbsolute
  rw [decide_eq_false_iff_not]
  intro hroot
  obtain ⟨hparts, hne⟩ := parts_of_anchored (Prod.ext hroot rfl)
  rw [h.parts] at hparts
  cases hparts
  exact hne rfl

theorem endsWith_slash {text : String} : text.endsWith "/" = true ↔ ['/'] <:+ text.toList := by
  rw [String.endsWith_eq_endsWith_toSlice, String.Slice.endsWith_string_iff]
  simp

/-- The text of an entry's path ends with a slash and the name. In front of them is the path of the
directory, without the slash at its end if it has one. -/
theorem exists_stem (hname : IsName name) (hdir : dir.text ≠ "") :
    ∃ stem, (dir.join ⟨name⟩).text.toList = stem ++ '/' :: name.toList ∧
      (dir.text.toList = stem ∨ dir.text.toList = stem ++ ['/']) := by
  unfold join
  rw [hname.not_isAbsolute, if_neg Bool.false_ne_true]
  by_cases hslash : dir.text.endsWith "/" = true
  · obtain ⟨stem, hstem⟩ := endsWith_slash.1 hslash
    rw [hslash, Bool.or_true, if_pos rfl]
    exact ⟨stem, by simp [← hstem], Or.inr hstem.symm⟩
  · rw [Bool.not_eq_true] at hslash
    have hempty : dir.text.isEmpty = false := by simpa using hdir
    rw [hslash, hempty, Bool.or_false, if_neg Bool.false_ne_true]
    exact ⟨dir.text.toList, by simp, Or.inl rfl⟩

/-- **The path of an entry** of an absolute directory: the parts of the directory, but for an empty
one at their end, and the name. -/
theorem anchored_join (hname : IsName name) (hdir : dir.anchored = (.root, rest)) :
    ∃ before, (dir.join ⟨name⟩).anchored = (.root, before ++ [name]) ∧
      (rest = before ∨ rest = before ++ [""]) := by
  obtain ⟨hparts, hne⟩ := parts_of_anchored hdir
  have htext : dir.text ≠ "" := by
    intro hempty
    unfold parts at hparts
    rw [hempty] at hparts
    cases hparts
    exact hne rfl
  obtain ⟨stem, hjoin, hstem⟩ := exists_stem hname htext
  set front := (Text.splitAll '/' stem).map String.ofList with hfront
  have hjoined : (dir.join ⟨name⟩).parts = front ++ [name] := by
    unfold parts
    rw [hjoin, Text.splitAll_append, Text.splitAll_of_not_mem hname.no_slash]
    simp [hfront]
  have hfront' : "" :: rest = front ∨ "" :: rest = front ++ [""] := by
    rw [← hparts]
    unfold parts
    rcases hstem with hstem | hstem
    · exact Or.inl (by rw [hstem])
    · exact Or.inr (by rw [hstem, Text.splitAll_append]; simp [hfront, Text.splitAll])
  rcases hfront' with hrest | hrest
  · refine ⟨rest, anchored_of_parts ?_ (by simp), Or.inl rfl⟩
    rw [hjoined, ← hrest, List.cons_append]
  · cases hf : front with
    | nil =>
      rw [hf] at hrest
      cases hrest
      exact absurd rfl hne
    | cons part before =>
      rw [hf] at hrest hjoined
      cases hrest
      exact ⟨before, anchored_of_parts hjoined (by simp), Or.inr rfl⟩

/-- **The components of an entry** of an absolute directory. -/
theorem components_join (hname : IsName name) (hdir : dir.isAbsolute = true) :
    (dir.join ⟨name⟩).components = dir.components ++ [.name name] := by
  obtain ⟨before, hjoin, hrest⟩ := anchored_join hname (anchored_of_isAbsolute hdir)
  have hidle : component? "" = none := rfl
  unfold components
  rw [hjoin, anchored_of_isAbsolute hdir]
  rcases hrest with hrest | hrest
  · rw [hrest]
    simp [hname.component?]
  · rw [hrest]
    simp [hname.component?, hidle]

theorem isAbsolute_join (hname : IsName name) (hdir : dir.isAbsolute = true) :
    (dir.join ⟨name⟩).isAbsolute = true := by
  obtain ⟨before, hjoin, -⟩ := anchored_join hname (anchored_of_isAbsolute hdir)
  unfold isAbsolute
  rw [hjoin]
  rfl

end Path

end RubyLint
