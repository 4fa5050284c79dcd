import RubyLint.Project.Run
import RubyLint.Proofs.Discovery
import RubyLint.Proofs.FixPasses

/-!
# What a fixing run writes

Files are fixed one by one, in path order, and each is written as soon as it is done. A run that
fails at a file has written those before it and nothing else.

* `Analyzer.fixFile`: what fixing one file comes to; `Analyzer.alters`, `Analyzer.editsIn`: whether
  its text changes, and the number of edits.
* `FixedUpTo`: a disk on which some files have been fixed and nothing else is changed.
* `FixedUpTo.concat`: one more file; `fixFiles_run`: a whole run.
* `Analyzer.fix_effect`: **the files on the disk after a run, and its report.**
-/

namespace RubyLint

namespace Disk

variable {d : Disk} {p q : Path} {place : Place} {old : String}

theorem text?_eq_some_iff_open? : d.text? p = some old ↔ d.open? p = some (.text old) := by
  unfold text?
  split
  case h_1 content heq => simp [heq]
  case h_2 hne => exact ⟨nofun, fun h => absurd h (hne old)⟩

theorem text?_eq_some_iff :
    d.text? p = some old ↔
      ∃ place, d.resolve? p = some place ∧ d.read? place = some (.text old) :=
  text?_eq_some_iff_open?.trans Option.bind_eq_some_iff

theorem resolve?_of_dirs {d' : Disk} (hfile : d'.isFile = d.isFile) (hdirs : d'.dirs = d.dirs) :
    d'.resolve? = d.resolve? := by
  refine resolve?_congr hfile ?_
  unfold isDir
  rw [hdirs]

/-- Two paths do not lead to one place. -/
def Apart (d : Disk) (p q : Path) : Prop :=
  ∀ place, d.resolve? p = some place → d.resolve? q ≠ some place

theorem Apart.symm (h : d.Apart p q) : d.Apart q p :=
  fun place hq hp => h place hp hq

/-- The disk with a new text at a place, written only if it differs from the old one. -/
def revise (d : Disk) (place : Place) (old new : String) : Disk :=
  if new = old then d else d.write place (.text new)

theorem read?_revise (h : d.read? place = some (.text old)) (new : String) (q : Place) :
    (d.revise place old new).read? q = if q = place then some (.text new) else d.read? q := by
  unfold revise
  split
  · rename_i hsame
    split
    · rename_i hq
      rw [hq, h, hsame]
    · rfl
  · exact d.read?_write place q (.text new)

theorem dirs_revise (d : Disk) (place : Place) (old new : String) :
    (d.revise place old new).dirs = d.dirs := by
  unfold revise write
  split
  · rfl
  · split <;> rfl

end Disk

/-- A report with what came of one more file. -/
def FixReport.note (report : FixReport) (p : Path) (old : String) (fixed : Fixed) : FixReport :=
  if fixed.content = old then report
  else
    { filesFixed := report.filesFixed ++ [p]
      fixesApplied := report.fixesApplied + fixed.applied }

namespace Analyzer

variable {a : Analyzer} {g : Grammar} {d d' : Disk} {p : Path} {paths done : List Path}
  {place : Place} {old : String} {fixed : Fixed} {e : RunError} {report : FixReport}

/-- What fixing one file comes to: its text before, and the outcome. It fails on a file that is no
text, and where `fixSource` does. -/
def fixFile (a : Analyzer) (g : Grammar) (d : Disk) (p : Path) : Except RunError (String × Fixed) :=
  match d.text? p with
  | none => .error .notText
  | some old =>
    match a.fixSource g p old with
    | .ok fixed => .ok (old, fixed)
    | .error e => .error (.unreadable p e)

/-- Fixing a file changes its text. -/
def alters (a : Analyzer) (g : Grammar) (d : Disk) (p : Path) : Bool :=
  match a.fixFile g d p with
  | .ok (old, fixed) => fixed.content ≠ old
  | .error _ => false

/-- The number of edits that fixing a file makes. -/
def editsIn (a : Analyzer) (g : Grammar) (d : Disk) (p : Path) : Nat :=
  match a.fixFile g d p with
  | .ok (_, fixed) => fixed.applied
  | .error _ => 0

theorem fixFile_eq_ok_iff :
    a.fixFile g d p = .ok (old, fixed) ↔
      d.text? p = some old ∧ a.fixSource g p old = .ok fixed := by
  unfold fixFile
  cases d.text? p with
  | none => simp
  | some content =>
    simp only [Option.some.injEq]
    cases hfix : a.fixSource g p content with
    | error e =>
      simp only [reduceCtorEq, false_iff, not_and]
      rintro rfl
      simp [hfix]
    | ok outcome =>
      simp only [Except.ok.injEq, Prod.mk.injEq]
      constructor
      · rintro ⟨rfl, rfl⟩
        exact ⟨rfl, hfix⟩
      · rintro ⟨rfl, h⟩
        rw [hfix] at h
        cases h
        exact ⟨rfl, rfl⟩

/-- Why a file cannot be fixed. -/
theorem text?_of_fixFile_error (h : a.fixFile g d p = .error e) :
    d.text? p = none ∧ e = .notText ∨
      ∃ old fault, d.text? p = some old ∧ e = .unreadable p fault ∧ isRuby p = true ∧
        g.takes old = false ∧ a.failOnParseError = true := by
  unfold fixFile at h
  cases htext : d.text? p with
  | none =>
    rw [htext] at h
    cases h
    exact .inl ⟨rfl, rfl⟩
  | some old =>
    rw [htext] at h
    simp only at h
    split at h
    · cases h
    · rename_i fault hfault
      cases h
      exact .inr ⟨old, fault, rfl, rfl, fixSource_error_iff.1 ⟨fault, hfault⟩⟩

/-- A report with what comes of some more files. -/
def reportOn (a : Analyzer) (g : Grammar) (d : Disk) (paths : List Path) (report : FixReport) :
    FixReport where
  filesFixed := report.filesFixed ++ paths.filter (a.alters g d)
  fixesApplied := report.fixesApplied + ((paths.filter (a.alters g d)).map (a.editsIn g d)).sum

theorem reportOn_cons (h : a.fixFile g d p = .ok (old, fixed)) (paths : List Path)
    (report : FixReport) :
    a.reportOn g d (p :: paths) report = a.reportOn g d paths (report.note p old fixed) := by
  have halters : a.alters g d p = decide (fixed.content ≠ old) := by
    unfold alters
    rw [h]
  have hedits : a.editsIn g d p = fixed.applied := by
    unfold editsIn
    rw [h]
  unfold reportOn FixReport.note
  by_cases hsame : fixed.content = old
  · simp [halters, hsame]
  · simp [halters, hsame, hedits, Nat.add_assoc]

/-- One round of a run. -/
theorem fixFiles_cons (p : Path) (paths : List Path) (d : Disk) (report : FixReport) :
    a.fixFiles g (p :: paths) d report =
      match d.resolve? p, d.text? p with
      | some place, some old =>
        match a.fixSource g p old with
        | .error e => ⟨d, [.unreadable p e], .error (.unreadable p e)⟩
        | .ok fixed =>
          if fixed.content = old then
            (a.fixFiles g paths d report).after (fixed.stop.notices p)
          else
            (a.fixFiles g paths (d.write place (.text fixed.content))
              { filesFixed := report.filesFixed ++ [p]
                fixesApplied := report.fixesApplied + fixed.applied }).after
              (fixed.stop.notices p ++ [.fixedFile fixed.applied p])
      | _, _ => ⟨d, [], .error .notText⟩ := by
  exact rfl

/-- A run ends at a file that cannot be fixed, and leaves the disk as it is. -/
theorem fixFiles_cons_error (h : a.fixFile g d p = .error e) (paths : List Path)
    (report : FixReport) :
    (a.fixFiles g (p :: paths) d report).disk = d ∧
      (a.fixFiles g (p :: paths) d report).result = .error e := by
  unfold fixFile at h
  rw [fixFiles_cons]
  cases htext : d.text? p with
  | none =>
    rw [htext] at h
    cases h
    cases d.resolve? p <;> exact ⟨rfl, rfl⟩
  | some old =>
    rw [htext] at h
    simp only at h
    obtain ⟨place, hplace, -⟩ := Disk.text?_eq_some_iff.1 htext
    cases hfix : a.fixSource g p old with
    | ok fixed => rw [hfix] at h; cases h
    | error fault =>
      rw [hfix] at h
      cases h
      simp only [hplace, hfix, and_self]

/-- A run goes on after a file that can be fixed, from the disk with the new text. -/
theorem fixFiles_cons_ok (hplace : d.resolve? p = some place)
    (h : a.fixFile g d p = .ok (old, fixed)) (paths : List Path) (report : FixReport) :
    ∃ told, a.fixFiles g (p :: paths) d report =
      (a.fixFiles g paths (d.revise place old fixed.content) (report.note p old fixed)).after
        told := by
  obtain ⟨htext, hfix⟩ := fixFile_eq_ok_iff.1 h
  rw [fixFiles_cons]
  simp only [hplace, htext, hfix, Disk.revise, FixReport.note]
  split
  · exact ⟨_, rfl⟩
  · exact ⟨_, rfl⟩

end Analyzer

/-- **A disk on which some files have been fixed.** Each of them holds what `fixSource` makes of its
text, all other places are as they were, and no file or directory has come or gone. -/
structure FixedUpTo (a : Analyzer) (g : Grammar) (d : Disk) (done : List Path) (d' : Disk) :
    Prop where
  fixed : ∀ p ∈ done, ∃ old fixed, d.text? p = some old ∧ a.fixSource g p old = .ok fixed ∧
    d'.text? p = some fixed.content
  kept : ∀ place, (∀ p ∈ done, d.resolve? p ≠ some place) → d'.read? place = d.read? place
  isFile_eq : d'.isFile = d.isFile
  dirs_eq : d'.dirs = d.dirs

namespace FixedUpTo

variable {a : Analyzer} {g : Grammar} {d d' : Disk} {p q : Path} {done : List Path} {place : Place}
  {old : String} {fixed : Fixed}

theorem nil (a : Analyzer) (g : Grammar) (d : Disk) : FixedUpTo a g d [] d where
  fixed := nofun
  kept := fun _ _ => rfl
  isFile_eq := rfl
  dirs_eq := rfl

theorem resolve?_eq (h : FixedUpTo a g d done d') : d'.resolve? = d.resolve? :=
  Disk.resolve?_of_dirs h.isFile_eq h.dirs_eq

/-- A file that is not yet done is as it was. -/
theorem open?_eq (h : FixedUpTo a g d done d') (hp : ∀ q ∈ done, d.Apart q p) :
    d'.open? p = d.open? p := by
  unfold Disk.open?
  rw [h.resolve?_eq]
  cases hplace : d.resolve? p with
  | none => rfl
  | some place => exact h.kept place fun q hq => (hp q hq).symm place hplace

theorem fixFile_eq (h : FixedUpTo a g d done d') (hp : ∀ q ∈ done, d.Apart q p) :
    a.fixFile g d' p = a.fixFile g d p := by
  unfold Analyzer.fixFile Disk.text?
  rw [h.open?_eq hp]

/-- **One more file.** -/
theorem concat (h : FixedUpTo a g d done d') (hp : ∀ q ∈ done, d.Apart q p)
    (hplace : d.resolve? p = some place) (hfix : a.fixFile g d p = .ok (old, fixed)) :
    FixedUpTo a g d (done ++ [p]) (d'.revise place old fixed.content) := by
  obtain ⟨hold, hsource⟩ := Analyzer.fixFile_eq_ok_iff.1 hfix
  have hread : d'.read? place = some (.text old) := by
    obtain ⟨place', hplace', hread⟩ := Disk.text?_eq_some_iff.1 hold
    rw [hplace] at hplace'
    cases hplace'
    rw [h.kept place fun q hq => (hp q hq).symm place hplace, hread]
  have hrevised := Disk.read?_revise hread fixed.content
  have hfile : (d'.revise place old fixed.content).isFile = d.isFile := by
    rw [← h.isFile_eq]
    funext other
    unfold Disk.isFile
    rw [hrevised]
    split
    · rename_i heq
      rw [heq, hread]
      rfl
    · rfl
  have hdirs : (d'.revise place old fixed.content).dirs = d.dirs := by
    rw [Disk.dirs_revise, h.dirs_eq]
  have hresolve := Disk.resolve?_of_dirs hfile hdirs
  refine ⟨?_, ?_, hfile, hdirs⟩
  · intro q hq
    rcases List.mem_append.1 hq with hq | hq
    · obtain ⟨before, outcome, hbefore, houtcome, hnow⟩ := h.fixed q hq
      obtain ⟨other, hother, hcontent⟩ := Disk.text?_eq_some_iff.1 hnow
      rw [h.resolve?_eq] at hother
      refine ⟨before, outcome, hbefore, houtcome, Disk.text?_eq_some_iff.2 ⟨other, ?_, ?_⟩⟩
      · rw [hresolve, hother]
      · -- the new text is written somewhere else
        have hne : other ≠ place := fun heq => (hp q hq) other hother (heq ▸ hplace)
        rw [hrevised, if_neg hne, hcontent]
    · cases List.mem_singleton.1 hq
      refine ⟨old, fixed, hold, hsource, Disk.text?_eq_some_iff.2 ⟨place, ?_, ?_⟩⟩
      · rw [hresolve, hplace]
      · rw [hrevised, if_pos rfl]
  · intro other hother
    have hne : other ≠ place := fun heq => hother p (by simp) (heq ▸ hplace)
    rw [hrevised, if_neg hne]
    exact h.kept other fun q hq => hother q (List.mem_append_left _ hq)

end FixedUpTo

namespace Analyzer

variable {a : Analyzer} {g : Grammar} {d d' : Disk} {paths done : List Path}

/-- **A run over files**, from a disk on which some are done: it gets through them all, or up to the
first that cannot be fixed. -/
theorem fixFiles_run (paths : List Path) (h : FixedUpTo a g d done d')
    (hsep : (done ++ paths).Pairwise d.Apart) (report : FixReport) :
    (a.fixFiles g paths d' report).result = .ok (a.reportOn g d paths report) ∧
        FixedUpTo a g d (done ++ paths) (a.fixFiles g paths d' report).disk ∨
      ∃ before p after e, paths = before ++ p :: after ∧
        (a.fixFiles g paths d' report).result = .error e ∧ a.fixFile g d p = .error e ∧
        FixedUpTo a g d (done ++ before) (a.fixFiles g paths d' report).disk := by
  induction paths generalizing done d' report with
  | nil =>
    refine .inl ⟨?_, ?_⟩
    · have hreport : a.reportOn g d [] report = report := by simp [reportOn]
      rw [hreport]
      rfl
    · rw [List.append_nil]
      exact h
  | cons p paths ih =>
    have hp : ∀ q ∈ done, d.Apart q p := fun q hq =>
      (List.pairwise_append.1 hsep).2.2 q hq p List.mem_cons_self
    cases hfix : a.fixFile g d p with
    | error e =>
      obtain ⟨hdisk, hresult⟩ :=
        fixFiles_cons_error ((h.fixFile_eq hp).trans hfix) paths report
      refine .inr ⟨[], p, paths, e, rfl, hresult, hfix, ?_⟩
      rw [hdisk, List.append_nil]
      exact h
    | ok outcome =>
      obtain ⟨old, fixed⟩ := outcome
      obtain ⟨place, hplace, -⟩ := Disk.text?_eq_some_iff.1 (fixFile_eq_ok_iff.1 hfix).1
      have hplace' : d'.resolve? p = some place := by rw [h.resolve?_eq, hplace]
      obtain ⟨told, hrun⟩ :=
        fixFiles_cons_ok hplace' ((h.fixFile_eq hp).trans hfix) paths report
      rw [hrun, reportOn_cons hfix]
      have hsep' : (done ++ [p] ++ paths).Pairwise d.Apart := by simpa using hsep
      rcases ih (h.concat hp hplace hfix) hsep' (report.note p old fixed) with
        ⟨hresult, hdisk⟩ | ⟨before, q, after, e, rfl, hresult, hq, hdisk⟩
      · exact .inl ⟨hresult, by rw [List.append_cons]; exact hdisk⟩
      · exact .inr ⟨p :: before, q, after, e, rfl, hresult, hq, by
          rw [List.append_cons]; exact hdisk⟩

/-- The files found lead to different places. -/
theorem discover_apart (hd : d.WellFormed) (h : a.discover d = .ok paths) :
    paths.Pairwise d.Apart := by
  obtain ⟨walked, hwalk, -⟩ := exists_walk h
  refine (discover_strict hd h).imp_of_mem ?_
  intro p q hp hq hlt place hplace hplace'
  have heq := eq_of_resolve? hd hwalk (mem_walk_of_mem_discover h hwalk hp)
    (mem_walk_of_mem_discover h hwalk hq) hplace hplace'
  rw [heq, Path.compare_eq_iff.2 rfl] at hlt
  cases hlt

/-- Which files a run over all of them changes. -/
theorem filter_alters (h : FixedUpTo a g d paths d') :
    paths.filter (a.alters g d) = paths.filter fun p => d'.open? p ≠ d.open? p := by
  refine List.filter_congr fun p hp => ?_
  obtain ⟨old, fixed, hold, hfix, hnow⟩ := h.fixed p hp
  unfold alters
  rw [fixFile_eq_ok_iff.2 ⟨hold, hfix⟩, Disk.text?_eq_some_iff_open?.1 hold,
    Disk.text?_eq_some_iff_open?.1 hnow]
  simp

/-- **What a fixing run does.** If it succeeds, each file found holds what `fixSource` makes of its
text and nothing else has changed; the report lists the files whose content differs from before, in
path order, and counts the edits in them. If it fails at a file, which is no text or is refused by
the grammar under an analyzer set to fail on that, the files before it are fixed and nothing else
has changed, neither this file nor a later one nor one that was not found. -/
theorem fix_effect (a : Analyzer) (g : Grammar) (hd : d.WellFormed) :
    (∀ e, a.discover d = .error e → a.fix g d = ⟨d, [], .error e⟩) ∧
    ∀ paths, a.discover d = .ok paths →
      paths.Pairwise (fun p q => p.compare q = .lt) ∧
      (∀ report, (a.fix g d).result = .ok report →
        FixedUpTo a g d paths (a.fix g d).disk ∧
        report.filesFixed = paths.filter (fun p => (a.fix g d).disk.open? p ≠ d.open? p) ∧
        report.fixesApplied = (report.filesFixed.map (a.editsIn g d)).sum) ∧
      (∀ e, (a.fix g d).result = .error e →
        ∃ before p after, paths = before ++ p :: after ∧
          (d.text? p = none ∧ e = .notText ∨
            ∃ old fault, d.text? p = some old ∧ e = .unreadable p fault ∧ isRuby p = true ∧
              g.takes old = false ∧ a.failOnParseError = true) ∧
          FixedUpTo a g d before (a.fix g d).disk ∧
          ∀ q ∈ p :: after, (a.fix g d).disk.open? q = d.open? q) := by
  refine ⟨fun e he => ?_, fun paths hpaths => ⟨discover_strict hd hpaths, ?_⟩⟩
  · rw [fix, he]
  · have hsep := discover_apart hd hpaths
    have hfix : a.fix g d = a.fixFiles g paths d {} := by rw [fix, hpaths]
    rw [hfix]
    rcases fixFiles_run paths (.nil a g d) (by simpa using hsep) {} with
      ⟨hresult, hdisk⟩ | ⟨before, p, after, e, rfl, hresult, hp, hdisk⟩
    · rw [List.nil_append] at hdisk
      rw [hresult]
      refine ⟨?_, nofun⟩
      intro report hreport
      cases hreport
      rw [← filter_alters hdisk]
      exact ⟨hdisk, by simp [reportOn], by simp [reportOn]⟩
    · rw [List.nil_append] at hdisk
      rw [hresult]
      refine ⟨nofun, ?_⟩
      intro e' he'
      cases he'
      refine ⟨before, p, after, rfl, text?_of_fixFile_error hp, hdisk, fun q hq =>
        hdisk.open?_eq fun r hr => ?_⟩
      exact (List.pairwise_append.1 hsep).2.2 r hr q hq

/-- A disk with a file that is no text between two that can be fixed. -/
def unevenDisk : Disk where
  files := [(["a.rb"], .text "Foo"), (["b.rb"], .binary [0xFF]), (["c.rb"], .text "Foo")]

theorem discover_unevenDisk :
    lengthening.discover unevenDisk = .ok [⟨"/a.rb"⟩, ⟨"/b.rb"⟩, ⟨"/c.rb"⟩] := by
  have hwalk : lengthening.walk unevenDisk = .ok [⟨"/a.rb"⟩, ⟨"/b.rb"⟩, ⟨"/c.rb"⟩] := by
    decide +kernel
  have hkept : [⟨"/a.rb"⟩, ⟨"/b.rb"⟩, ⟨"/c.rb"⟩].filter
      (fun p => lengthening.wants p && !lengthening.excludes p) =
        [⟨"/a.rb"⟩, ⟨"/b.rb"⟩, ⟨"/c.rb"⟩] := by decide +kernel
  have hsorted : [⟨"/a.rb"⟩, ⟨"/b.rb"⟩, ⟨"/c.rb"⟩].Pairwise
      (fun p q : Path => (p.compare q).isLE = true) := by decide +kernel
  unfold discover
  rw [hwalk, Except.map, hkept, List.mergeSort_of_pairwise hsorted]

/-- In the first pass over `Foo` an edit is kept, and the second one is taken back. -/
theorem fixSource_lengthening :
    lengthening.fixSource (oneConstant 5) ⟨"/a.rb"⟩ "Foo" =
      .ok ⟨"AFoo", 1, .discarded .noTree⟩ := by
  have h0 : lengthening.revise (oneConstant 5) ⟨"/a.rb"⟩ "Foo" = ⟨"AFoo", 1, 0⟩ := by cbv
  have h1 : lengthening.revise (oneConstant 5) ⟨"/a.rb"⟩ "AFoo" = ⟨"AAFoo", 1, 0⟩ := by cbv
  have h2 : lengthening.analyzeSource (oneConstant 5) ⟨"/a.rb"⟩ "AAFoo" = .error .noTree := by
    cbv
  have hone : 0 < (lengthening.revise (oneConstant 5) ⟨"/a.rb"⟩ "Foo").applied := by
    rw [h0]
    exact Nat.one_pos
  have htwo : 0 < (lengthening.revise (oneConstant 5) ⟨"/a.rb"⟩ "AFoo").applied := by
    rw [h1]
    exact Nat.one_pos
  have hpasses : lengthening.fixPasses (oneConstant 5) ⟨"/a.rb"⟩ maxFixPasses "Foo" 0 none =
      ⟨"AFoo", 1, .discarded .noTree⟩ := by
    rw [maxFixPasses, fixPasses_edit hone, h0, fixPasses_edit htwo, h1, fixPasses_unread h2]
    rfl
  have hreads := reads_of_applied hone
  rw [fixSource_of_reads hreads, hpasses]

/-- The first file is fixed and the run ends at the second. -/
theorem fix_effect_unevenDisk :
    unevenDisk.WellFormed ∧
      (lengthening.fix (oneConstant 5) unevenDisk).result = .error .notText ∧
      (lengthening.fix (oneConstant 5) unevenDisk).disk.text? ⟨"/a.rb"⟩ = some "AFoo" ∧
      (lengthening.fix (oneConstant 5) unevenDisk).disk.open? ⟨"/b.rb"⟩ = some (.binary [0xFF]) ∧
      (lengthening.fix (oneConstant 5) unevenDisk).disk.text? ⟨"/c.rb"⟩ = some "Foo" := by
  have hd : unevenDisk.WellFormed := by decide
  have ha : unevenDisk.text? ⟨"/a.rb"⟩ = some "Foo" := by decide +kernel
  have hb : unevenDisk.text? ⟨"/b.rb"⟩ = none := by decide +kernel
  obtain ⟨-, hok, herror⟩ :=
    (fix_effect lengthening (oneConstant 5) hd).2 _ discover_unevenDisk
  cases hresult : (lengthening.fix (oneConstant 5) unevenDisk).result with
  | ok report =>
    obtain ⟨old, fixed, hold, -⟩ := (hok report hresult).1.fixed ⟨"/b.rb"⟩ (by simp)
    rw [hb] at hold
    cases hold
  | error e =>
    obtain ⟨before, p, after, hsplit, hcause, hdisk, hrest⟩ := herror e hresult
    obtain ⟨hp, rfl⟩ : unevenDisk.text? p = none ∧ e = .notText := by
      rcases hcause with hnone | ⟨-, -, -, -, -, -, hfail⟩
      · exact hnone
      · cases hfail
    match before, hsplit with
    | [], hsplit =>
      cases hsplit
      rw [ha] at hp
      cases hp
    | [_], hsplit =>
      cases hsplit
      obtain ⟨old, fixed, hold, hfix, hnow⟩ := hdisk.fixed ⟨"/a.rb"⟩ (by simp)
      rw [ha] at hold
      cases hold
      rw [fixSource_lengthening] at hfix
      cases hfix
      refine ⟨hd, rfl, hnow, ?_, ?_⟩
      · rw [hrest ⟨"/b.rb"⟩ (by simp)]
        decide +kernel
      · rw [Disk.text?_eq_some_iff_open?, hrest ⟨"/c.rb"⟩ (by simp)]
        decide +kernel
    | _ :: q :: _, hsplit =>
      injection hsplit with _ htail
      injection htail with hq _
      obtain ⟨old, fixed, hold, -⟩ := hdisk.fixed q (by simp)
      rw [← hq, hb] at hold
      cases hold

end Analyzer

end RubyLint
