import Mathlib.Data.List.Nodup
import RubyLint.Project.Discover
import RubyLint.Proofs.PathOrder

/-!
# The files that are found

A walk reaches each file of a project once, by the path that leads to it: different files have
different components, so the order of paths puts them in one strict order, and they lead to
different places, so what is written through one path is not seen through another.

* `Disk.WellFormed`: a disk as file systems have them.
* `Path.below`: the path that a way from a directory leads to; `components_below`.
* `Disk.resolve?_below`: the place that it leads to.
* `Analyzer.exists_ways`: what a walk reaches.
* `Analyzer.discover_strict`: **the files to analyze are in strict path order**;
  `Analyzer.eq_of_resolve?`: **they lead to different places.**
-/

namespace RubyLint

/-- The path that a way from a directory leads to. -/
def Path.below (dir : Path) (way : Place) : Path :=
  way.foldl (fun path name => path.join ⟨name⟩) dir

/-- The entries on a way have names. -/
def Place.Named (way : Place) : Prop :=
  ∀ name ∈ way, Path.IsName name

instance (way : Place) : Decidable way.Named :=
  inferInstanceAs (Decidable (∀ name ∈ way, Path.IsName name))

namespace Path

variable {dir : Path} {way way' : Place}

/-- The components of what a way leads to. -/
theorem components_below (hdir : dir.isAbsolute = true) (hway : way.Named) :
    (dir.below way).components = dir.components ++ way.map Component.name := by
  induction way generalizing dir with
  | nil => simp [below]
  | cons name way ih =>
    obtain ⟨hname, hway⟩ := List.forall_mem_cons.1 hway
    have hnext : dir.below (name :: way) = (dir.join ⟨name⟩).below way := rfl
    rw [hnext, ih (isAbsolute_join hname hdir) hway, components_join hname hdir]
    simp

/-- Different ways lead to paths with different components. -/
theorem below_inj (hdir : dir.isAbsolute = true) (hway : way.Named) (hway' : way'.Named)
    (h : (dir.below way).components = (dir.below way').components) : way = way' := by
  rw [components_below hdir hway, components_below hdir hway', List.append_cancel_left_eq] at h
  exact List.map_injective_iff.2 (fun _ _ heq => Component.name.inj heq) h

end Path

namespace Disk

variable {d : Disk} {dir p : Path} {name : String} {base place : Place} {way : Place}

/-- **A disk as file systems have them**: one file at a place, and places made of names. -/
structure WellFormed (d : Disk) : Prop where
  once : (d.files.map (·.1)).Nodup
  named : ∀ entry ∈ d.files, entry.1.Named

instance (d : Disk) : Decidable d.WellFormed :=
  decidable_of_iff ((d.files.map (·.1)).Nodup ∧ ∀ entry ∈ d.files, entry.1.Named)
    ⟨fun h => ⟨h.1, h.2⟩, fun h => ⟨h.once, h.named⟩⟩

theorem follow?_append (d : Disk) (place : Place) (l r : List String) :
    d.follow? place (l ++ r) = (d.follow? place l).bind (d.follow? · r) := by
  induction l generalizing place with
  | nil => rfl
  | cons part l ih =>
    rw [List.cons_append, follow?, follow?]
    split
    · rfl
    · split
      · exact ih place
      · split
        · exact ih _
        · split
          · exact ih _
          · rfl

/-- Following names goes straight down. -/
theorem follow?_named (hway : way.Named) (h : d.follow? base way = some place) :
    place = base ++ way := by
  induction way generalizing base with
  | nil => cases h; simp
  | cons name way ih =>
    obtain ⟨hname, hway⟩ := List.forall_mem_cons.1 hway
    unfold follow? at h
    simp only [hname.not_idle, Bool.false_eq_true, if_false, beq_iff_eq, hname.ne_parent] at h
    split at h
    · cases h
    · split at h
      · simpa using ih hway h
      · cases h

theorem follow?_congr {d' : Disk} (hfile : d'.isFile = d.isFile) (hdir : d'.isDir = d.isDir)
    (place : Place) (parts : List String) : d'.follow? place parts = d.follow? place parts := by
  induction parts generalizing place with
  | nil => rfl
  | cons part parts ih =>
    simp only [follow?, holds, hfile, hdir, ih]
    rfl

/-- Paths lead to the same places wherever files and directories are at the same places. -/
theorem resolve?_congr {d' : Disk} (hfile : d'.isFile = d.isFile) (hdir : d'.isDir = d.isDir) :
    d'.resolve? = d.resolve? := by
  funext p
  unfold resolve?
  simp only [follow?_congr hfile hdir]

theorem resolve?_of_isAbsolute (d : Disk) (hp : p.isAbsolute = true) :
    d.resolve? p = d.follow? [] p.anchored.2 := by
  unfold resolve?
  rw [Path.anchored_of_isAbsolute hp]

theorem isAbsolute_of_resolve? (h : d.resolve? p = some place) : p.isAbsolute = true := by
  unfold resolve? at h
  split at h
  · rename_i hp
    unfold Path.isAbsolute
    rw [hp]
    rfl
  · cases h

/-- The place of an entry of a directory. A slash at the end of the directory's path is no part of
the entry's path, but needs a directory just as the entry does. -/
theorem resolve?_join (d : Disk) (hname : Path.IsName name) (hdir : dir.isAbsolute = true) :
    d.resolve? (dir.join ⟨name⟩) = (d.resolve? dir).bind (d.follow? · [name]) := by
  obtain ⟨before, hjoin, hrest⟩ := Path.anchored_join hname (Path.anchored_of_isAbsolute hdir)
  rw [d.resolve?_of_isAbsolute hdir, d.resolve?_of_isAbsolute (Path.isAbsolute_join hname hdir),
    hjoin, follow?_append]
  rcases hrest with hrest | hrest
  · rw [hrest]
  · rw [hrest, follow?_append, Option.bind_assoc]
    congr 1
    funext place
    have hidle : Path.isIdle "" = true := rfl
    cases hplace : d.isDir place <;> simp [follow?, hplace, hidle]

/-- **The place of what a way leads to.** -/
theorem resolve?_below (d : Disk) (hdir : dir.isAbsolute = true) (hway : way.Named) :
    d.resolve? (dir.below way) = (d.resolve? dir).bind (d.follow? · way) := by
  induction way generalizing dir with
  | nil => exact (Option.bind_fun_some (d.resolve? dir)).symm
  | cons name way ih =>
    obtain ⟨hname, hway⟩ := List.forall_mem_cons.1 hway
    have hnext : dir.below (name :: way) = (dir.join ⟨name⟩).below way := rfl
    rw [hnext, ih (Path.isAbsolute_join hname hdir) hway, d.resolve?_join hname hdir,
      Option.bind_assoc]
    congr 1
    funext place
    exact (d.follow?_append place [name] way).symm

end Disk

namespace Survey

variable {s : Survey} {way : Place}

/-- The way to a file that is listed, if the survey reaches it. -/
def wayTo? (s : Survey) (entry : Place × FileData) : Option Place :=
  if s.base.isPrefixOf entry.1 then
    let way := entry.1.drop s.base.length
    if !way.isEmpty && s.reaches [] way then some way else none
  else none

theorem visible_eq (s : Survey) : s.visible = s.disk.files.filterMap s.wayTo? := rfl

theorem wayTo?_eq_some {entry : Place × FileData} (h : s.wayTo? entry = some way) :
    entry.1 = s.base ++ way := by
  unfold wayTo? at h
  split at h
  · rename_i hpre
    obtain ⟨rest, hrest⟩ := List.isPrefixOf_iff_prefix.1 hpre
    simp only at h
    split at h
    · cases h
      rw [← hrest]
      simp
    · cases h
  · cases h

theorem named_of_mem_visible (hd : s.disk.WellFormed) (h : way ∈ s.visible) : way.Named := by
  obtain ⟨entry, hentry, hway⟩ := List.mem_filterMap.1 h
  intro name hname
  refine hd.named entry hentry name ?_
  rw [wayTo?_eq_some hway]
  exact List.mem_append_right _ hname

theorem nodup_visible (hd : s.disk.WellFormed) : s.visible.Nodup := by
  have hfiles : s.disk.files.Pairwise fun x y => x.1 ≠ y.1 := List.pairwise_map.1 hd.once
  refine List.pairwise_filterMap.2 (hfiles.imp ?_)
  intro x y hne way hway way' hway' heq
  -- two listed files at one way would be at one place
  rw [wayTo?_eq_some hway, wayTo?_eq_some hway', heq] at hne
  exact hne rfl

end Survey

namespace Analyzer

variable {a : Analyzer} {d : Disk} {paths walked : List Path} {p q : Path} {place : Place}

/-- The survey that a walk makes. -/
def survey (a : Analyzer) (d : Disk) (base : Place) : Survey where
  disk := d
  surroundings := a.surroundings
  respectGitignore := a.config.discovery.respectGitignore
  root := a.root
  base := base

/-- **What a walk reaches**: from the root, by different ways, each made of names. -/
theorem exists_ways (hd : d.WellFormed) (h : a.walk d = .ok walked) :
    ∃ base ways, d.resolve? a.root = some base ∧ walked = ways.map a.root.below ∧
      (ways : List Place).Nodup ∧ ∀ way ∈ ways, way.Named := by
  unfold walk at h
  split at h
  · cases h
  · rename_i base hbase
    split at h
    · -- the root is a file, and the way to it is empty
      cases h
      refine ⟨base, [[]], hbase, rfl, List.nodup_singleton _, ?_⟩
      intro way hway
      rw [List.mem_singleton.1 hway]
      exact List.forall_mem_nil _
    · simp only at h
      split at h
      · cases h
      · cases h
        exact ⟨base, (a.survey d base).visible, hbase, rfl, Survey.nodup_visible hd,
          fun way hway => Survey.named_of_mem_visible hd hway⟩

/-- Paths of a walk with the same components are the same. -/
theorem eq_of_components (hd : d.WellFormed) (h : a.walk d = .ok walked) (hp : p ∈ walked)
    (hq : q ∈ walked) (heq : p.components = q.components) : p = q := by
  obtain ⟨base, ways, hbase, rfl, -, hnamed⟩ := exists_ways hd h
  obtain ⟨way, hway, rfl⟩ := List.mem_map.1 hp
  obtain ⟨way', hway', rfl⟩ := List.mem_map.1 hq
  rw [Path.below_inj (Disk.isAbsolute_of_resolve? hbase) (hnamed way hway) (hnamed way' hway') heq]

theorem nodup_walk (hd : d.WellFormed) (h : a.walk d = .ok walked) : walked.Nodup := by
  obtain ⟨base, ways, hbase, rfl, hnodup, hnamed⟩ := exists_ways hd h
  refine List.Nodup.map_on (fun way hway way' hway' heq => ?_) hnodup
  exact Path.below_inj (Disk.isAbsolute_of_resolve? hbase) (hnamed way hway) (hnamed way' hway')
    (congrArg Path.components heq)

/-- **Paths of a walk lead to different places.** -/
theorem eq_of_resolve? (hd : d.WellFormed) (h : a.walk d = .ok walked) (hp : p ∈ walked)
    (hq : q ∈ walked) (hplace : d.resolve? p = some place) (hplace' : d.resolve? q = some place) :
    p = q := by
  obtain ⟨base, ways, hbase, rfl, -, hnamed⟩ := exists_ways hd h
  have hroot := Disk.isAbsolute_of_resolve? hbase
  obtain ⟨way, hway, rfl⟩ := List.mem_map.1 hp
  obtain ⟨way', hway', rfl⟩ := List.mem_map.1 hq
  rw [d.resolve?_below hroot (hnamed way hway), hbase, Option.bind_some] at hplace
  rw [d.resolve?_below hroot (hnamed way' hway'), hbase, Option.bind_some] at hplace'
  have heq := Disk.follow?_named (hnamed way hway) hplace
  rw [Disk.follow?_named (hnamed way' hway') hplace', List.append_cancel_left_eq] at heq
  rw [heq]

/-- What is found is what a walk reaches, less what is of no interest or excluded, in path order. -/
theorem exists_walk (h : a.discover d = .ok paths) :
    ∃ walked, a.walk d = .ok walked ∧
      paths = (walked.filter fun p => a.wants p && !a.excludes p).mergeSort
        fun p q => (p.compare q).isLE := by
  unfold discover at h
  cases hwalk : a.walk d with
  | error e => rw [hwalk] at h; cases h
  | ok walked =>
    rw [hwalk] at h
    cases h
    exact ⟨walked, rfl, rfl⟩

theorem mem_walk_of_mem_discover (h : a.discover d = .ok paths) (hwalk : a.walk d = .ok walked)
    (hp : p ∈ paths) : p ∈ walked := by
  obtain ⟨walked', hwalk', rfl⟩ := exists_walk h
  rw [hwalk] at hwalk'
  cases hwalk'
  exact List.mem_of_mem_filter (List.mem_mergeSort.1 hp)

/-- **The files to analyze are in strict path order.** -/
theorem discover_strict (hd : d.WellFormed) (h : a.discover d = .ok paths) :
    paths.Pairwise fun p q => p.compare q = .lt := by
  obtain ⟨walked, hwalk, hpaths⟩ := exists_walk h
  have hmem : ∀ p ∈ paths, p ∈ walked := fun p hp => mem_walk_of_mem_discover h hwalk hp
  have hsorted : paths.Pairwise fun p q => (p.compare q).isLE = true := by
    rw [hpaths]
    exact List.pairwise_mergeSort Path.compare_le_trans Path.compare_le_total _
  have hnodup : paths.Nodup := by
    rw [hpaths, (List.mergeSort_perm _ _).nodup_iff]
    exact (nodup_walk hd hwalk).filter _
  have hboth := hsorted.and hnodup
  refine hboth.imp_of_mem ?_
  rintro p q hp hq ⟨hle, hne⟩
  cases hcompare : p.compare q with
  | lt => rfl
  | eq =>
    exact absurd (eq_of_components hd hwalk (hmem p hp) (hmem q hq)
      (Path.compare_eq_iff.1 hcompare)) hne
  | gt => rw [hcompare] at hle; cases hle

end Analyzer

end RubyLint
