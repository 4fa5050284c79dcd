import RubyLint.Proofs.SourceOrder

/-!
# The files that a report names

A report shows a file by what is left of its path below the root, and whoever reads the report finds
the file again by joining this to the root. From a root that is a directory this works for every file
that a run reaches. A root that is a file itself leaves nothing of its own path, so its violations name
no file, and what they lead to is no file either: it ends in a slash, as only directories do.

* `Analyzer.RootIsFile`: the root of an analyzer is a file.
* `Analyzer.file_of_mem_found`: the file of a violation.
* `Analyzer.NamesFiles`: a report whose violations lead back to their files.
* `Analyzer.namesFiles_iff`: **a report names its files unless it has violations of a root that is a
  file.**
-/

namespace RubyLint

/-- What is settled from a violation stands where it stood. -/
theorem Violation.location_settled {v w : Violation} {rule : String}
    (h : v = { w with severity := v.severity } ∨ v = missingReason rule w) :
    v.location = w.location := by
  rcases h with h | h
  · rw [h]
  · rw [h]
    rfl

namespace Path

variable {p : Path}

/-- A path from `/` that ends in a slash has nothing in its last part. -/
theorem exists_before_slash (hp : p.isAbsolute = true) (hslash : p.text.endsWith "/" = true) :
    ∃ before, p.anchored = (.root, before ++ [""]) := by
  obtain ⟨hparts, hne⟩ := parts_of_anchored (anchored_of_isAbsolute hp)
  obtain ⟨stem, hstem⟩ := endsWith_slash.1 hslash
  have hlast : p.parts = (Text.splitAll '/' stem).map String.ofList ++ [""] := by
    unfold parts
    rw [← hstem, Text.splitAll_append]
    simp [Text.splitAll]
  rcases List.eq_nil_or_concat p.anchored.2 with hnil | ⟨before, last, hconcat⟩
  · exact absurd hnil hne
  · rw [hlast, hconcat, List.concat_eq_append, ← List.cons_append] at hparts
    obtain ⟨-, hempty⟩ := List.append_inj' hparts rfl
    refine ⟨before, ?_⟩
    rw [anchored_of_isAbsolute hp, hconcat, List.concat_eq_append, ← hempty]

/-- The empty path, seen from another one, is that one with a slash at its end. -/
theorem endsWith_join_empty (hp : p.text ≠ "") : (p.join ⟨""⟩).text.endsWith "/" = true := by
  have hrelative : (⟨""⟩ : Path).isAbsolute = false := rfl
  unfold join
  rw [hrelative, if_neg Bool.false_ne_true]
  split
  · rename_i hslash
    simpa [hp] using hslash
  · rw [endsWith_slash]
    simp

theorem text_ne_of_components (hp : p.components ≠ []) : p.text ≠ "" := by
  intro hempty
  have heq : p = ⟨""⟩ := congrArg Path.mk hempty
  rw [heq] at hp
  exact hp rfl

theorem text_ne_of_isAbsolute (hp : p.isAbsolute = true) : p.text ≠ "" := by
  apply text_ne_of_components
  unfold components
  rw [anchored_of_isAbsolute hp]
  exact List.cons_ne_nil _ _

end Path

namespace Disk

variable {d : Disk} {p : Path} {place : Place}

/-- **A path that ends in a slash leads to directories only.** -/
theorem isDir_of_endsWith_slash (hslash : p.text.endsWith "/" = true)
    (h : d.resolve? p = some place) : d.isDir place = true := by
  have hp := isAbsolute_of_resolve? h
  obtain ⟨before, hbefore⟩ := Path.exists_before_slash hp hslash
  rw [d.resolve?_of_isAbsolute hp, hbefore, follow?_append] at h
  obtain ⟨holder, -, hlast⟩ := Option.bind_eq_some_iff.1 h
  -- the empty part behind the slash stays where it is, but only in a directory
  unfold follow? at hlast
  split at hlast
  · cases hlast
  · rename_i hdir
    cases hlast
    simpa using hdir

/-- No file is a directory as well. -/
def FilesApart (d : Disk) : Prop :=
  ∀ entry ∈ d.files, d.isDir entry.1 = false

instance (d : Disk) : Decidable d.FilesApart :=
  inferInstanceAs (Decidable (∀ entry ∈ d.files, d.isDir entry.1 = false))

theorem text?_of_endsWith_slash (hd : d.WellFormed) (hapart : d.FilesApart)
    (hslash : p.text.endsWith "/" = true) : d.text? p = none := by
  have hopen : d.open? p = none := by
    by_contra hsome
    obtain ⟨data, hdata⟩ := Option.ne_none_iff_exists'.1 hsome
    obtain ⟨place, hplace, hread⟩ := Option.bind_eq_some_iff.1 hdata
    have hfile := hapart (place, data) (hd.read?_eq_some_iff.1 hread)
    rw [isDir_of_endsWith_slash hslash hplace] at hfile
    cases hfile
  unfold text?
  rw [hopen]

end Disk

theorem Survey.ne_nil_of_mem_visible {s : Survey} {way : Place} (h : way ∈ s.visible) :
    way ≠ [] := by
  rw [visible_eq] at h
  obtain ⟨entry, -, hway⟩ := List.mem_filterMap.1 h
  unfold wayTo? at hway
  split at hway
  · simp only at hway
    split at hway
    · rename_i hreached
      cases hway
      intro hnil
      rw [hnil] at hreached
      cases hreached
    · cases hway
  · cases hway

namespace Analyzer

variable {a : Analyzer} {g : Grammar} {d : Disk} {p : Path} {paths walked : List Path}
  {content : String} {vs : List Violation} {v : Violation} {report : Report}

/-- The root of an analyzer is a file. -/
def RootIsFile (a : Analyzer) (d : Disk) : Prop :=
  (d.resolve? a.root).any d.isFile = true

instance (a : Analyzer) (d : Disk) : Decidable (a.RootIsFile d) :=
  inferInstanceAs (Decidable (_ = true))

theorem rootIsFile_iff :
    a.RootIsFile d ↔ ∃ base, d.resolve? a.root = some base ∧ d.isFile base = true := by
  unfold RootIsFile
  rw [Option.any_eq_true]

/-- A walk from a file reaches this file. -/
theorem walk_of_rootIsFile (h : a.RootIsFile d) : a.walk d = .ok [a.root] := by
  obtain ⟨base, hbase, hfile⟩ := rootIsFile_iff.1 h
  unfold walk
  rw [hbase]
  exact if_pos hfile

/-- **What a walk reaches from a directory**: files at the end of ways that are not empty. -/
theorem exists_way (hd : d.WellFormed) (hroot : ¬ a.RootIsFile d) (h : a.walk d = .ok walked)
    (hp : p ∈ walked) : ∃ way : Place, way ≠ [] ∧ way.Named ∧ p = a.root.below way := by
  cases hbase : d.resolve? a.root with
  | none =>
    unfold walk at h
    rw [hbase] at h
    cases h
  | some base =>
    have hfile : d.isFile base = false := by
      rw [← Bool.not_eq_true]
      exact fun hfile => hroot (rootIsFile_iff.2 ⟨base, hbase, hfile⟩)
    cases hfault : (a.survey d base).fault? with
    | some file =>
      rw [walk_of_fault ⟨hbase, hfile⟩ hfault] at h
      cases h
    | none =>
      rw [walk_of_no_fault ⟨hbase, hfile⟩ hfault] at h
      cases h
      obtain ⟨way, hway, rfl⟩ := List.mem_map.1 hp
      exact ⟨way, Survey.ne_nil_of_mem_visible hway, Survey.named_of_mem_visible hd hway, rfl⟩

theorem isAbsolute_of_walk (h : a.walk d = .ok walked) : a.root.isAbsolute = true := by
  unfold walk at h
  split at h
  · cases h
  · rename_i base hbase
    exact Disk.isAbsolute_of_resolve? hbase

/-- The violations of built-in rules in a file are shown by the path of the file. -/
theorem file_of_mem (ha : a.BuiltIn) (h : a.analyzeSource g p content = .ok vs) (hv : v ∈ vs) :
    v.location.file = a.relative p := by
  rcases exists_check_of_mem h hv with ⟨r, hr, w, hw, hsettled⟩ | ⟨root, -, r, hr, w, hw, hsettled⟩
  · rw [Violation.location_settled hsettled]
    exact ((ha.textRules r hr).standsIn hw).file_eq
  · rw [Violation.location_settled hsettled]
    have hwalk := (ha.rules r hr).inPreorder (.inProject p content a.root) root
    rcases hwalk.exists_span (List.mem_map_of_mem hw) with htop | ⟨n, -, hnode⟩
    · rw [htop]
      rfl
    · rw [hnode]
      rfl

/-- **What is found in a file is shown by the path of the file.** -/
theorem file_of_mem_found (ha : a.BuiltIn) (hv : v ∈ a.found g d p) :
    v.location.file = a.relative p := by
  unfold found at hv
  split at hv
  · cases hv
  · split at hv
    · rename_i hvs
      exact file_of_mem ha hvs hv
    · cases hv

/-- **A run whose report names its files**: it holds what is found in the files, each violation has a
file that is not empty and, joined to the root, is the path of the one where it is found, and those of
different files have different ones. -/
def NamesFiles (a : Analyzer) (g : Grammar) (d : Disk) : Prop :=
  ∀ report, (a.analyze g d).result = .ok report →
    ∃ paths, a.discover d = .ok paths ∧ report.violations.Perm (paths.flatMap (a.found g d)) ∧
      (∀ p ∈ paths, ∀ v ∈ a.found g d p,
        v.location.file.text ≠ "" ∧ a.root.join v.location.file = p) ∧
      paths.Pairwise fun p q => ∀ v ∈ a.found g d p, ∀ w ∈ a.found g d q,
        v.location.file.same w.location.file = false

theorem NamesFiles.text_ne (hnames : a.NamesFiles g d) (h : (a.analyze g d).result = .ok report)
    (hv : v ∈ report.violations) : v.location.file.text ≠ "" := by
  obtain ⟨paths, -, hperm, hjoin, -⟩ := hnames report h
  obtain ⟨p, hp, hfound⟩ := List.mem_flatMap.1 (hperm.subset hv)
  exact (hjoin p hp v hfound).1

theorem exists_paths_perm (h : (a.analyze g d).result = .ok report) :
    ∃ paths, a.discover d = .ok paths ∧ report.violations.Perm (paths.flatMap (a.found g d)) := by
  obtain ⟨paths, hpaths, hreport, -⟩ := exists_paths h
  refine ⟨paths, hpaths, ?_⟩
  rw [hreport]
  exact List.mergeSort_perm _ _

/-- Violations of different files have different ones, whatever the root is. -/
theorem files_differ (ha : a.BuiltIn) (hd : d.WellFormed) (h : a.discover d = .ok paths) :
    paths.Pairwise fun p q => ∀ v ∈ a.found g d p, ∀ w ∈ a.found g d q,
      v.location.file.same w.location.file = false := by
  apply (relative_strict hd h).imp
  intro p q hlt v hv w hw
  rw [file_of_mem_found ha hv, file_of_mem_found ha hw]
  unfold Path.same
  rw [beq_eq_false_iff_ne]
  intro heq
  rw [Path.compare_eq_iff.2 heq] at hlt
  cases hlt

/-- From a directory, what a file is shown by leads back to it. -/
theorem join_relative (hd : d.WellFormed) (hroot : ¬ a.RootIsFile d) (h : a.walk d = .ok walked)
    (hp : p ∈ walked) : (a.relative p).text ≠ "" ∧ a.root.join (a.relative p) = p := by
  obtain ⟨way, hne, hway, rfl⟩ := exists_way hd hroot h hp
  rw [relative_below (isAbsolute_of_walk h) hway]
  refine ⟨?_, (Path.below_eq_join hway hne).symm⟩
  apply Path.text_ne_of_components
  rw [Path.components_way hway]
  simpa using hne

/-- A run from a directory names its files. -/
theorem namesFiles_of_directory (ha : a.BuiltIn) (hd : d.WellFormed) (hroot : ¬ a.RootIsFile d) :
    a.NamesFiles g d := by
  intro report h
  obtain ⟨paths, hpaths, hperm⟩ := exists_paths_perm h
  obtain ⟨walked, hwalk, -⟩ := exists_walk hpaths
  refine ⟨paths, hpaths, hperm, ?_, files_differ ha hd hpaths⟩
  intro p hp v hv
  rw [file_of_mem_found ha hv]
  exact join_relative hd hroot hwalk (mem_walk_of_mem_discover hpaths hwalk hp)

/-- A run from a file finds its violations in the root, and they name no file. -/
theorem file_of_rootIsFile (ha : a.BuiltIn) (hroot : a.RootIsFile d)
    (h : (a.analyze g d).result = .ok report) (hv : v ∈ report.violations) :
    v.location.file = ⟨""⟩ := by
  obtain ⟨paths, hpaths, hperm⟩ := exists_paths_perm h
  obtain ⟨p, hp, hv⟩ := List.mem_flatMap.1 (hperm.subset hv)
  have hwalk := walk_of_rootIsFile hroot
  have hp' := mem_walk_of_mem_discover hpaths hwalk hp
  rw [List.mem_singleton.1 hp'] at hv
  -- the way from the root to itself is empty, and so is what is left of the root
  have hself : a.relative (a.root.below []) = Path.render .none [] :=
    relative_below (isAbsolute_of_walk hwalk) (List.forall_mem_nil _)
  rw [file_of_mem_found ha hv]
  exact hself

/-- **A report names its files unless it has violations of a root that is a file.** From a directory,
the file of each violation is not empty and leads back, joined to the root, to the one where it is
found, and violations of different files have different ones. If the root is a file, then all its
violations have an empty file, and joined to the root this is nothing that can be read. -/
theorem namesFiles_iff (a : Analyzer) (g : Grammar) (d : Disk) (ha : a.BuiltIn)
    (hd : d.WellFormed) :
    (a.NamesFiles g d ↔ (a.RootIsFile d →
      ∀ report, (a.analyze g d).result = .ok report → report.violations = [])) ∧
    (a.RootIsFile d → ∀ report, (a.analyze g d).result = .ok report →
      ∀ v ∈ report.violations, v.location.file.text = "" ∧
        (d.FilesApart → d.text? (a.root.join v.location.file) = none)) := by
  refine ⟨⟨?_, ?_⟩, ?_⟩
  · intro hnames hroot report h
    rw [List.eq_nil_iff_forall_not_mem]
    intro v hv
    apply hnames.text_ne h hv
    rw [file_of_rootIsFile ha hroot h hv]
  · intro hnone
    by_cases hroot : a.RootIsFile d
    · intro report h
      obtain ⟨paths, hpaths, hperm⟩ := exists_paths_perm h
      refine ⟨paths, hpaths, hperm, ?_, files_differ ha hd hpaths⟩
      -- a report without violations has nothing to name
      intro p hp v hv
      have hmem := hperm.symm.subset (List.mem_flatMap.2 ⟨p, hp, hv⟩)
      rw [hnone hroot report h] at hmem
      exact absurd hmem List.not_mem_nil
    · exact namesFiles_of_directory ha hd hroot
  · intro hroot report h v hv
    rw [file_of_rootIsFile ha hroot h hv]
    have habsolute : a.root.isAbsolute = true := isAbsolute_of_walk (walk_of_rootIsFile hroot)
    refine ⟨rfl, fun hapart => Disk.text?_of_endsWith_slash hd hapart ?_⟩
    exact Path.endsWith_join_empty (Path.text_ne_of_isAbsolute habsolute)

/-- An analyzer with one rule, for a root. -/
def reloadsFrom (root : Path) : Analyzer where
  root
  surroundings := { workingDir := ⟨"/"⟩ }
  rules := [noReload]
  textRules := []
  exclude := []
  config := {}
  failOnParseError := false

theorem reloadsFrom_builtIn (root : Path) : (reloadsFrom root).BuiltIn := by
  refine ⟨?_, List.forall_mem_nil _⟩
  intro r hr
  rw [List.mem_singleton.1 hr]
  exact .noReload

theorem discover_reloadsFrom :
    (reloadsFrom ⟨"/a"⟩).discover twoReloads = .ok [⟨"/a/c.rb"⟩] := by
  have hwalk : (reloadsFrom ⟨"/a"⟩).walk twoReloads = .ok [⟨"/a/c.rb"⟩] := by decide +kernel
  have hkept : [⟨"/a/c.rb"⟩].filter (fun p =>
      (reloadsFrom ⟨"/a"⟩).wants p && !(reloadsFrom ⟨"/a"⟩).excludes p) = [⟨"/a/c.rb"⟩] := by
    decide +kernel
  rw [discover, hwalk, Except.map, hkept, List.mergeSort_singleton]

/-- From its directory the file has a name; what it is called from itself cannot be read. -/
theorem namesFiles_iff_twoReloads :
    twoReloads.WellFormed ∧ twoReloads.FilesApart ∧
      (reloadsFrom ⟨"/a"⟩).NamesFiles wideReloads twoReloads ∧
      ((reloadsFrom ⟨"/a"⟩).analyze wideReloads twoReloads).result.toOption.map
        (·.violations.map (·.location.file.text)) = some ["c.rb"] ∧
      (reloadsFrom ⟨"/a/c.rb"⟩).RootIsFile twoReloads ∧
      ∀ report, ((reloadsFrom ⟨"/a/c.rb"⟩).analyze wideReloads twoReloads).result = .ok report →
        ∀ v ∈ report.violations, twoReloads.text? (Path.join ⟨"/a/c.rb"⟩ v.location.file) = none := by
  have hd : twoReloads.WellFormed := by decide
  have hapart : twoReloads.FilesApart := by decide
  have hdirectory : ¬ (reloadsFrom ⟨"/a"⟩).RootIsFile twoReloads := by decide +kernel
  have hfile : (reloadsFrom ⟨"/a/c.rb"⟩).RootIsFile twoReloads := by decide +kernel
  obtain ⟨hiff, -⟩ := namesFiles_iff (reloadsFrom ⟨"/a"⟩) wideReloads twoReloads
    (reloadsFrom_builtIn _) hd
  obtain ⟨-, hlone⟩ := namesFiles_iff (reloadsFrom ⟨"/a/c.rb"⟩) wideReloads twoReloads
    (reloadsFrom_builtIn _) hd
  refine ⟨hd, hapart, hiff.2 fun h => absurd h hdirectory, ?_, hfile, ?_⟩
  · unfold analyze
    rw [discover_reloadsFrom]
    cbv
  · intro report h v hv
    exact (hlone hfile report h v hv).2 hapart

/-- From the file itself it has none. -/
theorem loneFile_not_namesFiles :
    ¬ (reloadsFrom ⟨"/a/c.rb"⟩).NamesFiles wideReloads twoReloads := by
  intro hnames
  have hempty : ((reloadsFrom ⟨"/a/c.rb"⟩).analyze wideReloads twoReloads).result.toOption.map
      (·.violations.map (·.location.file.text)) = some [""] := by
    cbv
  cases h : ((reloadsFrom ⟨"/a/c.rb"⟩).analyze wideReloads twoReloads).result with
  | error e =>
    rw [h] at hempty
    cases hempty
  | ok report =>
    rw [h] at hempty
    have hfiles : report.violations.map (·.location.file.text) = [""] := Option.some.inj hempty
    obtain ⟨v, hv, htext⟩ := List.mem_map.1 (hfiles ▸ List.mem_singleton_self "")
    exact hnames.text_ne h hv htext

end Analyzer

end RubyLint
