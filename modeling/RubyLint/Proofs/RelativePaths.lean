import Mathlib.Data.List.DropRight
import RubyLint.Proofs.Discovery
import RubyLint.Source

/-!
# Paths as reports show them

A report names a file by what is left of its path below the project's root. For a file that a walk
reaches, this is the way to it with slashes between the names, however the root is written. So files
compare in a report as they do in the walk that reaches them, and what is left leads back to a file
from the root, unless nothing is left.

* `Path.anchored_render`: a path that is put together from parts.
* `Path.stripPrefix?_below`: **what is left of a path below a directory is the way to it.**
* `Path.below_eq_join`: **what is left leads back to the path.**
* `Analyzer.relative_below`: the path by which a report shows a file.
* `Analyzer.compare_relative`: **files compare in a report as they compare in the walk.**
-/

namespace RubyLint

namespace Path

variable {q dir : Path} {name : String} {parts before : List String} {way : Place}

/-- The parts of a path that is put together from parts, the first of which is not idle. -/
theorem anchored_render (hslash : ∀ part ∈ parts, '/' ∉ part.toList)
    (hhead : ∀ part ∈ parts.head?, isIdle part = false) :
    (render .none parts).anchored = (.none, parts) := by
  cases parts with
  | nil => rfl
  | cons first rest =>
    have hfirst : isIdle first = false := hhead first rfl
    have hparts : (render .none (first :: rest)).parts = first :: rest := by
      have hpieces : ∀ piece ∈ (first :: rest).map String.toList, '/' ∉ piece := by
        intro piece hpiece
        obtain ⟨part, hpart, rfl⟩ := List.mem_map.1 hpiece
        exact hslash part hpart
      have hsep : "/".toList = ['/'] := rfl
      unfold render Path.parts
      rw [String.toList_intercalate, hsep, Text.splitAll_intercalate hpieces (by simp),
        List.map_map]
      simp
    unfold anchored
    rw [hparts]
    split
    · rename_i heq
      cases heq
      cases hfirst
    · rename_i heq
      cases heq
      cases hfirst
    · rename_i heq
      cases heq
      cases hfirst
    · rfl

theorem components_of_named (hway : way.Named) :
    way.filterMap component? = way.map Component.name := by
  rw [← List.filterMap_eq_map]
  exact List.filterMap_congr fun name hname => (hway name hname).component?

/-- A way is a path by itself. -/
theorem anchored_way (hway : way.Named) : (render .none way).anchored = (.none, way) := by
  apply anchored_render
  · exact fun name hname => (hway name hname).no_slash
  · exact fun name hname => (hway name (List.mem_of_mem_head? hname)).not_idle

theorem components_way (hway : way.Named) : (render .none way).components = way.map .name := by
  unfold components
  rw [anchored_way hway]
  exact components_of_named hway

theorem dropComponents?_nil (parts : List String) : dropComponents? [] parts = some parts := by
  cases parts <;> rfl

theorem isIdle_of_component? {part : String} (h : component? part = none) : isIdle part = true := by
  unfold component? at h
  by_contra hidle
  rw [if_neg hidle] at h
  split at h <;> cases h

/-- Parts that hold no components are idle. -/
theorem isIdle_of_filterMap (h : parts.filterMap component? = []) :
    ∀ part ∈ parts, isIdle part = true := by
  intro part hpart
  exact isIdle_of_component? (List.filterMap_eq_nil_iff.1 h part hpart)

/-- After the components of the parts in front, those behind are left, and perhaps idle ones. -/
theorem exists_dropComponents? (before after : List String) :
    ∃ idle, (∀ part ∈ idle, isIdle part = true) ∧
      dropComponents? (before.filterMap component?) (before ++ after) = some (idle ++ after) := by
  induction before with
  | nil => exact ⟨[], List.forall_mem_nil _, dropComponents?_nil after⟩
  | cons part before ih =>
    obtain ⟨idle, hidle, hdrop⟩ := ih
    cases hpart : component? part with
    | none =>
      rw [List.filterMap_cons_none hpart]
      cases hbefore : before.filterMap component? with
      | nil =>
        -- all components are found, so the parts that are left are taken as they are
        refine ⟨part :: before, ?_, dropComponents?_nil _⟩
        exact List.forall_mem_cons.2 ⟨isIdle_of_component? hpart, isIdle_of_filterMap hbefore⟩
      | cons c cs =>
        refine ⟨idle, hidle, ?_⟩
        rw [List.cons_append, dropComponents?, hpart, ← hbefore]
        exact hdrop
    | some d =>
      refine ⟨idle, hidle, ?_⟩
      rw [List.filterMap_cons_some hpart, List.cons_append, dropComponents?, hpart]
      simp only [if_true]
      exact hdrop

/-- Trimming takes idle parts in front of a way and leaves the way. -/
theorem trimIdle_append (hidle : ∀ part ∈ before, isIdle part = true) (hway : way.Named) :
    trimIdle (before ++ way) = way := by
  have hstart : (before ++ way).dropWhile isIdle = way := by
    rw [List.dropWhile_append_of_pos hidle]
    cases way with
    | nil => rfl
    | cons name way =>
      rw [List.dropWhile_cons_of_neg]
      rw [(hway name List.mem_cons_self).not_idle]
      exact Bool.false_ne_true
  have hend : trimIdleEnd way = way := by
    rcases List.eq_nil_or_concat way with rfl | ⟨front, name, rfl⟩
    · rfl
    · rw [List.concat_eq_append] at hway ⊢
      have hname : ¬ isIdle name = true := by
        rw [(hway name (by simp)).not_idle]
        exact Bool.false_ne_true
      exact List.rdropWhile_concat_neg _ _ _ hname
  unfold trimIdle
  rw [hstart, hend]

/-- The parts of what a way leads to: those of the directory, up to idle ones, and then the way. -/
theorem anchored_below (hdir : dir.isAbsolute = true) (hway : way.Named) :
    ∃ before, (dir.below way).anchored = (.root, before ++ way) ∧
      before.filterMap component? = dir.anchored.2.filterMap component? := by
  induction way using List.reverseRecOn with
  | nil =>
    refine ⟨dir.anchored.2, ?_, rfl⟩
    rw [List.append_nil]
    exact anchored_of_isAbsolute hdir
  | append_singleton front name ih =>
    obtain ⟨hfront, hname⟩ := List.forall_mem_append.1 hway
    obtain ⟨before, hbefore, hcomponents⟩ := ih hfront
    have hlast : dir.below (front ++ [name]) = (dir.below front).join ⟨name⟩ := by
      unfold below
      rw [List.foldl_append]
      rfl
    obtain ⟨stem, hjoin, hstem⟩ := anchored_join (hname name List.mem_cons_self) hbefore
    rw [hlast, hjoin]
    rcases hstem with rfl | hstem
    · exact ⟨before, by rw [List.append_assoc], hcomponents⟩
    · -- only the directory itself can end in a slash
      rcases List.eq_nil_or_concat front with rfl | ⟨rest, last, rfl⟩
      · rw [List.append_nil] at hstem
        refine ⟨stem, rfl, ?_⟩
        rw [← hcomponents, hstem, List.filterMap_append]
        exact (List.append_nil _).symm
      · rw [List.concat_eq_append, ← List.append_assoc] at hstem
        obtain ⟨-, hempty⟩ := List.append_inj' hstem rfl
        cases hempty
        have hidle := (hfront "" (by simp)).not_idle
        cases hidle

/-- **What is left of a path below a directory is the way to it**, however the directory is written. -/
theorem stripPrefix?_below (hdir : dir.isAbsolute = true) (hway : way.Named) :
    (dir.below way).stripPrefix? dir = some (render .none way) := by
  obtain ⟨before, hbelow, hbefore⟩ := anchored_below hdir hway
  obtain ⟨idle, hidle, hdrop⟩ := exists_dropComponents? before way
  have hdiranchor := anchored_of_isAbsolute hdir
  have hdircomponents : dir.components = .root :: dir.anchored.2.filterMap component? := by
    unfold components
    rw [hdiranchor]
    rfl
  unfold stripPrefix?
  rw [hbelow, hdiranchor, hdircomponents, ← hbefore]
  simp only [if_true, List.tail_cons]
  unfold stripPrefix?.below
  rw [hdrop, Option.map_some, trimIdle_append hidle hway]

theorem isAbsolute_way (hway : way.Named) : (render .none way).isAbsolute = false := by
  unfold isAbsolute
  rw [anchored_way hway]
  rfl

theorem IsName.ne_empty (hname : IsName name) : name ≠ "" := by
  intro hempty
  have hidle := hname.not_idle
  rw [hempty] at hidle
  cases hidle

theorem IsName.not_endsWith (hname : IsName name) (front : String) :
    (front ++ name).endsWith "/" = false := by
  rw [← Bool.not_eq_true, endsWith_slash, String.toList_append]
  rintro ⟨stem, hstem⟩
  have hne : name.toList ≠ [] := fun hempty => hname.ne_empty (String.toList_eq_nil_iff.1 hempty)
  have hlast := congrArg List.getLast? hstem
  rw [List.getLast?_append_of_ne_nil _ hne, List.getLast?_concat] at hlast
  exact hname.no_slash (List.mem_of_getLast? hlast.symm)

/-- A path seen from an entry of a directory is seen from the directory behind the entry's name. -/
theorem join_join (hname : IsName name) (hq : q.isAbsolute = false)
    (hboth : (⟨name ++ "/" ++ q.text⟩ : Path).isAbsolute = false) :
    (dir.join ⟨name⟩).join q = dir.join ⟨name ++ "/" ++ q.text⟩ := by
  have hempty (front : String) : (front ++ name).isEmpty = false := by
    simp [hname.ne_empty]
  unfold join
  rw [hname.not_isAbsolute, hq, hboth]
  simp only [Bool.false_eq_true, if_false]
  split
  · rw [hname.not_endsWith, hempty]
    simp [String.append_assoc]
  · rw [hname.not_endsWith, hempty]
    simp [String.append_assoc]

/-- **What is left of a path below a directory leads back to it**, seen from the directory. -/
theorem below_eq_join (hway : way.Named) (hne : way ≠ []) :
    dir.below way = dir.join (render .none way) := by
  induction way generalizing dir with
  | nil => exact absurd rfl hne
  | cons name way ih =>
    obtain ⟨hname, hrest⟩ := List.forall_mem_cons.1 hway
    cases way with
    | nil =>
      have hsingle : render .none [name] = ⟨name⟩ := by simp [render]
      rw [hsingle]
      rfl
    | cons next way =>
      have hboth : render .none (name :: next :: way) =
          ⟨name ++ "/" ++ (render .none (next :: way)).text⟩ :=
        congrArg Path.mk String.intercalate_cons_cons
      have hnext : dir.below (name :: next :: way) = (dir.join ⟨name⟩).below (next :: way) := rfl
      have habsolute := isAbsolute_way hway
      rw [hboth] at habsolute
      rw [hnext, ih hrest (List.cons_ne_nil _ _), hboth]
      exact join_join hname (isAbsolute_way hrest) habsolute

/-- Components in front of both sides do not matter to their order. -/
theorem compareComponents_append (front cs ds : List Component) :
    compareComponents (front ++ cs) (front ++ ds) = compareComponents cs ds := by
  induction front with
  | nil => rfl
  | cons c front ih =>
    have hsame : c.compare c = .eq := Std.ReflCmp.compare_self
    rw [List.cons_append, List.cons_append, compareComponents, hsame, ih]
    rfl

end Path

namespace Analyzer

variable {a : Analyzer} {d : Disk} {walked : List Path} {p q : Path} {way : Place}

/-- The path by which a report shows a file. -/
def relative (a : Analyzer) (p : Path) : Path :=
  (p.stripPrefix? a.root).getD p

/-- A file that a way leads to is shown by the way. -/
theorem relative_below (hroot : a.root.isAbsolute = true) (hway : way.Named) :
    a.relative (a.root.below way) = Path.render .none way := by
  unfold relative
  rw [Path.stripPrefix?_below hroot hway, Option.getD_some]

/-- A file that a walk reaches is shown by what its path has beyond the root. -/
theorem components_relative (hd : d.WellFormed) (h : a.walk d = .ok walked) (hp : p ∈ walked) :
    p.components = a.root.components ++ (a.relative p).components := by
  obtain ⟨base, ways, hbase, rfl, -, hnamed⟩ := exists_ways hd h
  obtain ⟨way, hway, rfl⟩ := List.mem_map.1 hp
  have hroot := Disk.isAbsolute_of_resolve? hbase
  rw [relative_below hroot (hnamed way hway), Path.components_way (hnamed way hway),
    Path.components_below hroot (hnamed way hway)]

/-- **Files compare in a report as they compare in the walk.** -/
theorem compare_relative (hd : d.WellFormed) (h : a.walk d = .ok walked) (hp : p ∈ walked)
    (hq : q ∈ walked) : (a.relative p).compare (a.relative q) = p.compare q := by
  unfold Path.compare
  rw [components_relative hd h hp, components_relative hd h hq, Path.compareComponents_append]

end Analyzer

end RubyLint
