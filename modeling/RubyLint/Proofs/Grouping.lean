import RubyLint.Cli.Output
import RubyLint.Proofs.SourceOrder

/-!
# Reports grouped by file

A printed report has a header wherever the file of a violation is not that of the one before. Since a
report is sorted, violations of one file stand together, and each file has one header. Files are the
same if their components are: that is what both the sort and the printer go by.

* `Report.parts_some` (one file): the violations of a file up to the first of another one.
* `Report.lt_of_mem_dropWhile`: in a sorted report, what comes after them is of later files.
* `Report.exists_files` (a whole report): **the parts of a sorted report, file by file.**
* `Report.shownViolation`, `Report.shownCounts`: what is printed of a violation and of the figures, sign
  by sign; `Report.text_of_parts`: what is printed of a report.
* `Analyzer.analyze_text`: **the text of a report has one header for each file with violations**, in path
  order, and under it the violations of this file; the counts of its summary add up to all of them.
-/

namespace RubyLint

/-- A violation is in a file. -/
def Violation.isIn (file : Path) (v : Violation) : Bool :=
  file.same v.location.file

namespace Violation

variable {p q : Path} {v : Violation}

theorem isIn_iff : v.isIn p = true ↔ p.compare v.location.file = .eq := by
  unfold isIn Path.same
  rw [beq_iff_eq, Path.compare_eq_iff]

theorem isIn_self (v : Violation) : v.isIn v.location.file = true :=
  isIn_iff.2 Std.ReflCmp.compare_self

/-- A violation of a later file is not in this one. -/
theorem isIn_eq_false (h : p.compare v.location.file = .lt) : v.isIn p = false := by
  rw [← Bool.not_eq_true, isIn_iff, h]
  decide

/-- A violation is in no later file than its own. -/
theorem isIn_eq_false_of_lt (hv : v.isIn p = true) (h : p.compare q = .lt) : v.isIn q = false := by
  rw [← Bool.not_eq_true, isIn_iff]
  intro heq
  have hlt : p.compare v.location.file = .lt := Std.TransCmp.lt_of_lt_of_eq h heq
  rw [isIn_iff.1 hv] at hlt
  cases hlt

/-- A violation of a file or a later one, but not in it, is of a later one. -/
theorem lt_of_not_isIn (hle : (p.compare v.location.file).isLE = true) (hin : v.isIn p = false) :
    p.compare v.location.file = .lt := by
  cases hcompare : p.compare v.location.file with
  | lt => rfl
  | eq =>
    rw [isIn_iff.2 hcompare] at hin
    cases hin
  | gt =>
    rw [hcompare] at hle
    cases hle

end Violation

namespace Report

variable {vs : List Violation} {v w : Violation} {file : Path} {files : List Path}

/-- Violations in the order of their files. -/
def ByFile (vs : List Violation) : Prop :=
  vs.Pairwise fun v w => (v.location.file.compare w.location.file).isLE = true

/-- The parts of a report on a file: its header, its violations and an empty line. -/
def filePart (vs : List Violation) (file : Path) : List TextPart :=
  .header file :: ((vs.filter (·.isIn file)).map .violation ++ [.gap])

/-- **Under the header of a file** stand the violations up to the first of another file; with that one
the report starts anew. -/
theorem parts_some (file : Path) (vs : List Violation) :
    parts (some file) vs = (vs.takeWhile (·.isIn file)).map .violation ++
      .gap :: parts none (vs.dropWhile (·.isIn file)) := by
  induction vs with
  | nil => rfl
  | cons v vs ih =>
    rw [parts]
    by_cases hin : v.isIn file = true
    · have hsame : file.same v.location.file = true := hin
      rw [if_pos hsame, ih, List.takeWhile_cons_of_pos hin, List.dropWhile_cons_of_pos hin]
      rfl
    · have hother : ¬ file.same v.location.file = true := hin
      rw [if_neg hother, List.takeWhile_cons_of_neg hin, List.dropWhile_cons_of_neg hin]
      rfl

/-- In a sorted report, what comes after the violations of a file is of later files. -/
theorem lt_of_mem_dropWhile (hsorted : ByFile vs)
    (hfile : ∀ v ∈ vs, (file.compare v.location.file).isLE = true)
    (hw : w ∈ vs.dropWhile (·.isIn file)) : file.compare w.location.file = .lt := by
  induction vs with
  | nil => exact absurd hw List.not_mem_nil
  | cons v vs ih =>
    obtain ⟨hfirst, hrest⟩ := List.pairwise_cons.1 hsorted
    obtain ⟨hv, hvs⟩ := List.forall_mem_cons.1 hfile
    by_cases hin : v.isIn file = true
    · rw [List.dropWhile_cons_of_pos hin] at hw
      exact ih hrest hvs hw
    · rw [List.dropWhile_cons_of_neg hin] at hw
      have hlt : file.compare v.location.file = .lt :=
        Violation.lt_of_not_isIn hv (by simpa using hin)
      rcases List.mem_cons.1 hw with rfl | hw
      · exact hlt
      · exact Std.TransCmp.lt_of_lt_of_isLE hlt (hfirst w hw)

/-- **Violations file by file**: files in path order, each shown as its first violation has it, and all
violations, file after file. -/
structure FileByFile (vs : List Violation) (files : List Path) : Prop where
  ascending : files.Pairwise fun p q => p.compare q = .lt
  head : ∀ p ∈ files, (vs.filter (·.isIn p)).head?.map (·.location.file) = some p
  joined : files.flatMap (fun p => vs.filter (·.isIn p)) = vs

section FirstFile

variable {front behind : List Violation}

/-- The violations of the first file of a report. -/
theorem filter_first (hfront : ∀ w ∈ front, w.isIn v.location.file = true)
    (hbehind : ∀ w ∈ behind, v.location.file.compare w.location.file = .lt) :
    (v :: (front ++ behind)).filter (·.isIn v.location.file) = v :: front := by
  have hnone : behind.filter (·.isIn v.location.file) = [] := by
    rw [List.filter_eq_nil_iff]
    intro w hw
    rw [Violation.isIn_eq_false (hbehind w hw)]
    exact Bool.false_ne_true
  rw [List.filter_cons_of_pos v.isIn_self, List.filter_append, List.filter_eq_self.2 hfront, hnone,
    List.append_nil]

/-- A later file has no violations among those of the first one. -/
theorem filter_later {p : Path} (hfront : ∀ w ∈ front, w.isIn v.location.file = true)
    (hp : v.location.file.compare p = .lt) :
    (v :: (front ++ behind)).filter (·.isIn p) = behind.filter (·.isIn p) := by
  have hnone : front.filter (·.isIn p) = [] := by
    rw [List.filter_eq_nil_iff]
    intro w hw
    rw [Violation.isIn_eq_false_of_lt (hfront w hw) hp]
    exact Bool.false_ne_true
  have hv : ¬ v.isIn p = true := by
    rw [Violation.isIn_eq_false_of_lt v.isIn_self hp]
    exact Bool.false_ne_true
  rw [List.filter_cons_of_neg hv, List.filter_append, hnone, List.nil_append]

theorem FileByFile.later (h : FileByFile behind files)
    (hbehind : ∀ w ∈ behind, v.location.file.compare w.location.file = .lt) :
    ∀ p ∈ files, v.location.file.compare p = .lt := by
  intro p hp
  obtain ⟨w, hw, hfile⟩ := Option.map_eq_some_iff.1 (h.head p hp)
  rw [← hfile]
  exact hbehind w (List.mem_of_mem_filter (List.mem_of_head? hw))

/-- **One file more**, in front of the others. -/
theorem FileByFile.cons (h : FileByFile behind files)
    (hfront : ∀ w ∈ front, w.isIn v.location.file = true)
    (hbehind : ∀ w ∈ behind, v.location.file.compare w.location.file = .lt) :
    FileByFile (v :: (front ++ behind)) (v.location.file :: files) where
  ascending := List.pairwise_cons.2 ⟨h.later hbehind, h.ascending⟩
  head := by
    intro p hp
    rcases List.mem_cons.1 hp with rfl | hp
    · rw [filter_first hfront hbehind]
      rfl
    · rw [filter_later hfront (h.later hbehind p hp)]
      exact h.head p hp
  joined := by
    have hrest : files.flatMap (fun p => (v :: (front ++ behind)).filter (·.isIn p)) = behind := by
      conv_rhs => rw [← h.joined]
      apply List.flatMap_congr
      intro p hp
      exact filter_later hfront (h.later hbehind p hp)
    rw [List.flatMap_cons, filter_first hfront hbehind, hrest, List.cons_append]

end FirstFile

/-- **The parts of a sorted report, file by file.** The printer looks at one violation and the file of
the last header; this is enough since a file that is left behind does not come again. -/
theorem exists_files (hsorted : ByFile vs) :
    ∃ files, FileByFile vs files ∧ parts none vs = files.flatMap (filePart vs) := by
  induction hn : vs.length using Nat.strong_induction_on generalizing vs with
  | _ n ih =>
  cases vs with
  | nil => exact ⟨[], ⟨List.Pairwise.nil, List.forall_mem_nil _, rfl⟩, rfl⟩
  | cons v rest =>
    obtain ⟨hfirst, hrest⟩ := List.pairwise_cons.1 hsorted
    set front := rest.takeWhile (·.isIn v.location.file) with hfront
    set behind := rest.dropWhile (·.isIn v.location.file) with hbehind
    have hsplit : rest = front ++ behind := List.takeWhile_append_dropWhile.symm
    have hin : ∀ w ∈ front, w.isIn v.location.file = true := fun w hw => List.mem_takeWhile_imp hw
    have hlater : ∀ w ∈ behind, v.location.file.compare w.location.file = .lt :=
      fun w hw => lt_of_mem_dropWhile hrest hfirst hw
    have hshorter : behind.length < n := by
      rw [← hn, hsplit, List.length_cons, List.length_append]
      omega
    have hsuffix : behind <:+ rest := List.dropWhile_suffix _
    obtain ⟨files, hfiles, hparts⟩ := ih behind.length hshorter (hrest.sublist hsuffix.sublist) rfl
    refine ⟨v.location.file :: files, ?_, ?_⟩
    · rw [hsplit]
      exact hfiles.cons hin hlater
    · have hothers : files.flatMap (filePart behind) = files.flatMap (filePart (v :: rest)) := by
        apply List.flatMap_congr
        intro p hp
        unfold filePart
        rw [hsplit, filter_later hin (hfiles.later hlater p hp)]
      have hfirstPart : filePart (v :: rest) v.location.file =
          .header v.location.file :: ((v :: front).map .violation ++ [.gap]) := by
        unfold filePart
        rw [hsplit, filter_first hin hlater]
      rw [List.flatMap_cons, ← hothers, ← hparts, hfirstPart, parts, parts_some]
      simp [hfront, hbehind]

/-- Every violation is under one header. -/
theorem FileByFile.existsUnique (h : FileByFile vs files) (hv : v ∈ vs) :
    ∃! p, p ∈ files ∧ v.isIn p = true := by
  rw [← h.joined] at hv
  obtain ⟨p, hp, hv⟩ := List.mem_flatMap.1 hv
  have hin := (List.mem_filter.1 hv).2
  refine ⟨p, ⟨hp, hin⟩, ?_⟩
  rintro q ⟨hq, hinq⟩
  -- different headers compare as different, but both compare as equal to the file
  have hapart : files.Pairwise fun p q => p.compare q ≠ .eq := by
    apply h.ascending.imp
    intro p q hlt heq
    rw [hlt] at heq
    cases heq
  have hsymm : Std.Symm fun p q : Path => p.compare q ≠ .eq :=
    ⟨fun p q hne heq => hne (Std.OrientedCmp.eq_comm.1 heq)⟩
  by_contra hne
  apply hapart.forall hq hp hne
  have hfile := Std.OrientedCmp.eq_comm.1 (Violation.isIn_iff.1 hin)
  exact (Std.TransCmp.congr_right hfile).symm.trans (Violation.isIn_iff.1 hinq)

theorem file_isLE_of_order {l k : Location} (h : (order l k).isLE = true) :
    (l.file.compare k.file).isLE = true := by
  cases hfile : l.file.compare k.file with
  | lt => rfl
  | eq => rfl
  | gt =>
    unfold order at h
    rw [hfile] at h
    cases h

/-- Sorting a report puts its violations in the order of their files. -/
theorem byFile_mergeSort (vs : List Violation) : ByFile (vs.mergeSort le) := by
  apply (List.pairwise_mergeSort le_trans le_total vs).imp
  intro v w hle
  exact file_isLE_of_order hle

/-! ## The text -/

/-- The word for a severity: red, yellow or blue. -/
def shownSeverity : Severity → String
  | .error => "\x1b[31merror\x1b[0m"
  | .warning => "\x1b[33mwarning\x1b[0m"
  | .info => "\x1b[34minfo\x1b[0m"

/-- The line of a violation, and a second one for its advice. -/
def shownViolation (v : Violation) : String :=
  "  " ++ toString v.location.line ++ ":" ++ toString v.location.column ++ "  " ++
    shownSeverity v.severity ++ "  " ++ v.code ++ " " ++ v.rule ++ "  " ++ v.message ++ "\n" ++
    match v.suggestion with
    | none => ""
    | some s => "      = help: " ++ s.message ++ "\n"

/-- The counts in red, yellow or green, and a second line if something can be fixed. -/
def shownCounts (errors warnings infos files fixable : Nat) : String :=
  (if 0 < errors then "\x1b[31m" else if 0 < warnings then "\x1b[33m" else "\x1b[32m") ++
    "Found " ++ toString errors ++ " error(s), " ++ toString warnings ++ " warning(s), " ++
    toString infos ++ " info(s) in " ++ toString files ++ " file(s)\x1b[0m\n" ++
    if 0 < fixable then toString fixable ++ " issue(s) can be fixed with --fix\n" else ""

theorem printed_append (lines more : List String) :
    printed (lines ++ more) = printed lines ++ printed more := by
  unfold printed
  rw [List.map_append, String.join_append]

theorem printed_flatMap {α : Type} (xs : List α) (lines : α → List String) :
    printed (xs.flatMap lines) = String.join (xs.map fun x => printed (lines x)) := by
  induction xs with
  | nil => rfl
  | cons x xs ih => rw [List.flatMap_cons, printed_append, ih, List.map_cons, String.join_cons]

theorem styled_eq {code : Nat} {on : String} (h : "\x1b[" ++ toString code ++ "m" = on)
    (text : String) : styled code text = on ++ text ++ "\x1b[0m" := by
  rw [← h]
  rfl

theorem label_eq (s : Severity) : s.label = shownSeverity s := by
  cases s <;> rfl

theorem printed_violation (v : Violation) :
    printed (TextPart.violation v).lines = shownViolation v := by
  have htext (text : String) : toString text = text := rfl
  unfold TextPart.lines shownViolation
  dsimp only
  rw [label_eq]
  cases v.suggestion with
  | none => simp [printed, htext, String.append_assoc]
  | some s => simp [printed, htext, String.append_assoc]

/-- What is printed of a file. -/
theorem printed_filePart (vs : List Violation) (file : Path) :
    printed ((filePart vs file).flatMap TextPart.lines) =
      "\x1b[1m" ++ file.text ++ "\x1b[0m\n" ++
        String.join ((vs.filter (·.isIn file)).map shownViolation) ++ "\n" := by
  have hbold : styled 1 file.text = "\x1b[1m" ++ file.text ++ "\x1b[0m" := styled_eq (by rfl) _
  have hheader : printed (TextPart.header file).lines = "\x1b[1m" ++ file.text ++ "\x1b[0m\n" := by
    simp [printed, TextPart.lines, hbold, String.append_assoc]
  have hviolations : printed (((vs.filter (·.isIn file)).map TextPart.violation).flatMap
      TextPart.lines) = String.join ((vs.filter (·.isIn file)).map shownViolation) := by
    rw [List.flatMap_map, printed_flatMap]
    simp only [printed_violation]
  unfold filePart
  rw [List.flatMap_cons, List.flatMap_append, printed_append, printed_append, hheader, hviolations]
  simp [printed, TextPart.lines, String.append_assoc]

theorem counts_eq (r : Report) :
    r.counts = (r.violations.countP (·.severity = .error), r.violations.countP (·.severity = .warning),
      r.violations.countP (·.severity = .info)) := by
  unfold counts ofSeverity
  simp only [List.countP_eq_length_filter]

theorem styled_worst (errors warnings : Nat) (text : String) :
    styled (if 0 < errors then 31 else if 0 < warnings then 33 else 32) text =
      (if 0 < errors then "\x1b[31m" else if 0 < warnings then "\x1b[33m" else "\x1b[32m") ++ text ++
        "\x1b[0m" := by
  split
  · exact styled_eq (by rfl) text
  · split
    · exact styled_eq (by rfl) text
    · exact styled_eq (by rfl) text

/-- What is printed of the figures of a report. -/
theorem printed_summaryLines (r : Report) :
    printed r.summaryLines = shownCounts (r.violations.countP (·.severity = .error))
      (r.violations.countP (·.severity = .warning)) (r.violations.countP (·.severity = .info))
      r.filesChecked (r.violations.countP (·.isFixable)) := by
  have hfixable : r.fixable = r.violations.countP (·.isFixable) := by
    unfold fixable
    rw [List.countP_eq_length_filter]
  unfold summaryLines shownCounts
  rw [r.counts_eq, hfixable]
  dsimp only
  rw [styled_worst]
  have htext (text : String) : toString text = text := rfl
  split
  · simp [printed, htext, String.append_assoc]
  · simp [printed, htext, String.append_assoc]

/-- **The text of a report**, once its parts are known. -/
theorem text_of_parts {r : Report}
    (h : parts none r.violations = files.flatMap (filePart r.violations)) :
    r.text = String.join (files.map fun p =>
        "\x1b[1m" ++ p.text ++ "\x1b[0m\n" ++
          String.join ((r.violations.filter (·.isIn p)).map shownViolation) ++ "\n") ++
      shownCounts (r.violations.countP (·.severity = .error))
        (r.violations.countP (·.severity = .warning)) (r.violations.countP (·.severity = .info))
        r.filesChecked (r.violations.countP (·.isFixable)) := by
  unfold text
  rw [printed_append, printed_summaryLines, h, List.flatMap_assoc, printed_flatMap]
  simp only [printed_filePart]

/-- Every violation has one of the three severities that are counted. -/
theorem countP_add (vs : List Violation) :
    vs.countP (·.severity = .error) + vs.countP (·.severity = .warning) +
      vs.countP (·.severity = .info) = vs.length := by
  induction vs with
  | nil => rfl
  | cons v vs ih =>
    cases hseverity : v.severity <;> simp [hseverity] <;> omega

end Report

/-- **A report in text form is grouped by file**, whatever rules found its violations. It has one header
for each file with violations, these are in path order, and under each header stand the violations of
that file in the order of the report, each on a line of its own, and an empty line. Every violation is
printed once, and the three counts of the summary add up to the number of violations. -/
theorem Analyzer.analyze_text (a : Analyzer) (g : Grammar) (d : Disk) (report : Report)
    (h : (a.analyze g d).result = .ok report) :
    (∃ files : List Path,
      report.output .text = String.join (files.map fun p =>
          "\x1b[1m" ++ p.text ++ "\x1b[0m\n" ++
            String.join ((report.violations.filter (·.isIn p)).map Report.shownViolation) ++ "\n") ++
        Report.shownCounts (report.violations.countP (·.severity = .error))
          (report.violations.countP (·.severity = .warning))
          (report.violations.countP (·.severity = .info))
          report.filesChecked (report.violations.countP (·.isFixable)) ∧
      (files.Pairwise fun p q => p.compare q = .lt) ∧
      (∀ p ∈ files,
        (report.violations.filter (·.isIn p)).head?.map (·.location.file) = some p) ∧
      (∀ v ∈ report.violations, ∃! p, p ∈ files ∧ v.isIn p = true) ∧
      files.flatMap (fun p => report.violations.filter (·.isIn p)) = report.violations) ∧
    report.violations.countP (·.severity = .error) +
      report.violations.countP (·.severity = .warning) +
        report.violations.countP (·.severity = .info) = report.violations.length := by
  obtain ⟨paths, -, hreport, -⟩ := exists_paths h
  have hsorted : Report.ByFile report.violations := by
    rw [hreport]
    exact Report.byFile_mergeSort _
  obtain ⟨files, hfiles, hparts⟩ := Report.exists_files hsorted
  exact ⟨⟨files, Report.text_of_parts hparts, hfiles.ascending, hfiles.head,
      fun v hv => hfiles.existsUnique hv, hfiles.joined⟩, Report.countP_add _⟩

/-- The three rules in the order in which they report in a file. -/
def inOrder : Analyzer :=
  { threeRules with rules := [FrozenLiteral.rule, noReload, ConstantPrefix.rule {}] }

/-- What these rules find in a file. -/
def reloadsIn (file : Path) : List Violation :=
  [FrozenLiteral.info.violation { file, line := 1, column := 1 }
      "Require \"# frozen_string_literal: true\" in any file that creates a string literal"
      (some { message := "Add `# frozen_string_literal: true`"
              edit := some ⟨{ file, line := 1, column := 1 }, "# frozen_string_literal: true\n"⟩ }),
    noReload.violation { file, line := 1, column := 1, length := 11 }
      "Update the model in memory instead of calling .reload",
    (ConstantPrefix.info {}).violation { file, line := 2, column := 1, offset := 12, length := 1 }
      "Use `::` prefix for constants to ensure resolution from root namespace."
      (some { message := "Prefix with `::`"
              edit := some ⟨{ file, line := 2, column := 1, offset := 12 }, "::"⟩ })]

/-- These violations as they are printed. -/
def reloadLines : List String :=
  ["  1:1  \x1b[33mwarning\x1b[0m  RBL002 require-frozen-string-literal  " ++
      "Require \"# frozen_string_literal: true\" in any file that creates a string literal\n" ++
      "      = help: Add `# frozen_string_literal: true`\n",
    "  1:1  \x1b[33mwarning\x1b[0m  RBL005 no-reload  " ++
      "Update the model in memory instead of calling .reload\n",
    "  2:1  \x1b[33mwarning\x1b[0m  RBL001 require-constant-prefix  " ++
      "Use `::` prefix for constants to ensure resolution from root namespace.\n" ++
      "      = help: Prefix with `::`\n"]

theorem shown_reloadsIn (file : Path) :
    (reloadsIn file).map Report.shownViolation = reloadLines := by
  have hany : (reloadsIn file).map Report.shownViolation =
      (reloadsIn ⟨""⟩).map Report.shownViolation := rfl
  rw [hany]
  decide +kernel

theorem analyze_inOrder : (inOrder.analyze wideReloads twoReloads).result =
    .ok ⟨reloadsIn ⟨"a/c.rb"⟩ ++ reloadsIn ⟨"a-b.rb"⟩, 2⟩ := by
  have hdiscover : inOrder.discover twoReloads = .ok [⟨"/a/c.rb"⟩, ⟨"/a-b.rb"⟩] :=
    discover_twoReloads
  have hfound : (inOrder.analyzeFiles wideReloads twoReloads
      [⟨"/a/c.rb"⟩, ⟨"/a-b.rb"⟩] {}).result.toOption =
        some ⟨reloadsIn ⟨"a/c.rb"⟩ ++ reloadsIn ⟨"a-b.rb"⟩, 2⟩ := by
    decide +kernel
  have hsorted : (reloadsIn ⟨"a/c.rb"⟩ ++ reloadsIn ⟨"a-b.rb"⟩).Pairwise fun v w =>
      Report.le v w = true := by
    decide +kernel
  unfold Analyzer.analyze
  rw [hdiscover]
  simp only
  cases hrun : (inOrder.analyzeFiles wideReloads twoReloads
      [⟨"/a/c.rb"⟩, ⟨"/a-b.rb"⟩] {}).result with
  | error e =>
    rw [hrun] at hfound
    cases hfound
  | ok total =>
    rw [hrun] at hfound
    cases hfound
    exact congrArg (fun vs => Except.ok (Report.mk vs 2)) (List.mergeSort_of_pairwise hsorted)

/-- **The text of a report on two files** with three violations each. One file is in a directory that the
name of the other starts with. -/
theorem Analyzer.analyze_text_inOrder :
    ((⟨"a/c.rb"⟩ : Path).compare ⟨"a-b.rb"⟩ = .lt) ∧
    ∃ report : Report, (inOrder.analyze wideReloads twoReloads).result = .ok report ∧
      report.violations = reloadsIn ⟨"a/c.rb"⟩ ++ reloadsIn ⟨"a-b.rb"⟩ ∧
      report.output .text =
        "\x1b[1ma/c.rb\x1b[0m\n" ++ String.join reloadLines ++ "\n" ++
        ("\x1b[1ma-b.rb\x1b[0m\n" ++ String.join reloadLines ++ "\n") ++
        ("\x1b[33mFound 0 error(s), 6 warning(s), 0 info(s) in 2 file(s)\x1b[0m\n" ++
          "4 issue(s) can be fixed with --fix\n") ∧
      ∃ files : List Path, (files.Pairwise fun p q => p.compare q = .lt) ∧
        (∀ v ∈ report.violations, ∃! p, p ∈ files ∧ v.isIn p = true) ∧
        files.flatMap (fun p => report.violations.filter (·.isIn p)) = report.violations := by
  obtain ⟨⟨files, -, hascending, -, hone, hjoined⟩, -⟩ :=
    analyze_text inOrder wideReloads twoReloads _ analyze_inOrder
  refine ⟨by decide +kernel, _, analyze_inOrder, rfl, ?_, files, hascending, hone, hjoined⟩
  set vs := reloadsIn ⟨"a/c.rb"⟩ ++ reloadsIn ⟨"a-b.rb"⟩ with hvs
  have hparts : Report.parts none vs =
      [⟨"a/c.rb"⟩, ⟨"a-b.rb"⟩].flatMap (Report.filePart vs) := by
    decide +kernel
  have hfirst : vs.filter (·.isIn ⟨"a/c.rb"⟩) = reloadsIn ⟨"a/c.rb"⟩ := by
    decide +kernel
  have hsecond : vs.filter (·.isIn ⟨"a-b.rb"⟩) = reloadsIn ⟨"a-b.rb"⟩ := by
    decide +kernel
  have hcounts : Report.shownCounts (vs.countP (·.severity = .error))
      (vs.countP (·.severity = .warning)) (vs.countP (·.severity = .info)) 2
      (vs.countP (·.isFixable)) =
        "\x1b[33mFound 0 error(s), 6 warning(s), 0 info(s) in 2 file(s)\x1b[0m\n" ++
          "4 issue(s) can be fixed with --fix\n" := by
    decide +kernel
  have hheaders : "\x1b[1m" ++ "a/c.rb" ++ "\x1b[0m\n" = "\x1b[1ma/c.rb\x1b[0m\n" ∧
      "\x1b[1m" ++ "a-b.rb" ++ "\x1b[0m\n" = "\x1b[1ma-b.rb\x1b[0m\n" := by
    decide +kernel
  refine (Report.text_of_parts hparts).trans ?_
  rw [hcounts]
  simp only [List.map_cons, List.map_nil, String.join_cons, String.join_nil, String.append_empty,
    hheaders, hfirst, hsecond, shown_reloadsIn]

end RubyLint
