import RubyLint.Proofs.Positions
import RubyLint.Proofs.Preorder
import RubyLint.Proofs.RelativePaths
import RubyLint.Proofs.StableSort
import RubyLint.Proofs.WalkOrder

/-!
# Reports are in source order

A report is sorted by file, line and column, and never by offset. Lines and columns grow with offsets,
and the files come in path order already, so the sort puts the violations of each file in the order of
their offsets and moves nothing from one file to another.

* `Report.order_location`: **locations in one file compare as their offsets do.**
* `Violation.StandsIn`: a violation at a place between two characters of a file.
* `Analyzer.FoundBy`: how the violations of a file come about, rule by rule.
* `Analyzer.found`, `Analyzer.exists_paths`: what a run finds in a file, and its report.
* `InSourceOrder`: the violations of a file in the order of their offsets.
* `Analyzer.analyze_source_order`: **reported order is source order.**
-/

namespace RubyLint

open Text

namespace Report

/-- Locations compare by file, then by line, then by column. -/
theorem order_eq_compareLex :
    order = compareLex (compareLex (fun l k => l.file.compare k.file) (compareOn (·.line)))
      (compareOn (·.column)) := rfl

instance : Std.TransCmp order := by
  have hfile : Std.TransCmp fun l k : Location => l.file.compare k.file :=
    { eq_swap := Std.OrientedCmp.eq_swap
      isLE_trans := Std.TransCmp.isLE_trans }
  rw [order_eq_compareLex]
  infer_instance

/-- The comparison that sorts a report. -/
def le (v w : Violation) : Bool :=
  (order v.location w.location).isLE

theorem le_trans (u v w : Violation) (huv : le u v = true) (hvw : le v w = true) :
    le u w = true :=
  Std.TransCmp.isLE_trans huv hvw

theorem le_total (v w : Violation) : (le v w || le w v) = true := by
  have hswap : order w.location v.location = (order v.location w.location).swap :=
    Std.OrientedCmp.eq_swap
  unfold le
  rw [hswap]
  cases order v.location w.location <;> rfl

theorem order_of_file_lt {l k : Location} (h : l.file.compare k.file = .lt) :
    order l k = .lt := by
  unfold order
  rw [h]
  rfl

theorem order_location_of_lt {ctx : FileContext} {m n stop stop' : Nat}
    (hm : isBoundary m ctx.source.chars = true) (hn : isBoundary n ctx.source.chars = true)
    (hlt : m < n) : order (ctx.location m stop) (ctx.location n stop') = .lt := by
  have hfile : ctx.relative.compare ctx.relative = .eq := Std.ReflCmp.compare_self
  change ((ctx.relative.compare ctx.relative).then
    (compare (ctx.source.position m).1 (ctx.source.position n).1)).then
      (compare (ctx.source.position m).2 (ctx.source.position n).2) = .lt
  rw [hfile]
  -- the file does not tell the locations apart, so the line does, or else the column
  rcases Source.position_lt hm hn hlt with hline | ⟨hline, hcolumn⟩
  · have hcompare := Nat.compare_eq_lt.2 hline
    rw [hcompare]
    rfl
  · have hcompare := Nat.compare_eq_lt.2 hcolumn
    rw [hline, hcompare, Nat.compare_eq_eq.2 rfl]
    rfl

/-- **Locations in one file compare as their offsets do**, if these are between characters. -/
theorem order_location {ctx : FileContext} {m n stop stop' : Nat}
    (hm : isBoundary m ctx.source.chars = true) (hn : isBoundary n ctx.source.chars = true) :
    order (ctx.location m stop) (ctx.location n stop') = compare m n := by
  rcases Nat.lt_trichotomy m n with hlt | heq | hgt
  · rw [order_location_of_lt hm hn hlt, Nat.compare_eq_lt.2 hlt]
  · subst heq
    have hself : order (ctx.location m stop) (ctx.location m stop) = .eq := Std.ReflCmp.compare_self
    rw [Nat.compare_eq_eq.2 rfl]
    exact hself
  · have hswap : order (ctx.location m stop) (ctx.location n stop') =
        (order (ctx.location n stop') (ctx.location m stop)).swap := Std.OrientedCmp.eq_swap
    rw [hswap, order_location_of_lt hn hm hgt, Nat.compare_eq_gt.2 hgt]
    rfl

end Report

/-- **A violation at a place of a file**, which starts between two characters or at either end. -/
def Violation.StandsIn (ctx : FileContext) (v : Violation) : Prop :=
  ∃ span : Span, isBoundary span.start ctx.source.chars = true ∧ v.location = ctx.locate span

namespace Violation.StandsIn

variable {ctx : FileContext} {v w : Violation}

theorem file_eq (h : v.StandsIn ctx) : v.location.file = ctx.relative := by
  obtain ⟨span, -, hlocation⟩ := h
  rw [hlocation]
  rfl

theorem isBoundary_offset (h : v.StandsIn ctx) :
    isBoundary v.location.offset ctx.source.chars = true := by
  obtain ⟨span, hstart, hlocation⟩ := h
  rw [hlocation]
  exact hstart

/-- What an analyzer makes of a violation stands where it stood. -/
theorem settled {rule : String} (hw : w.StandsIn ctx)
    (h : v = { w with severity := v.severity } ∨ v = missingReason rule w) : v.StandsIn ctx := by
  obtain ⟨span, hstart, hlocation⟩ := hw
  rcases h with h | h
  · rw [h]
    exact ⟨span, hstart, hlocation⟩
  · rw [h]
    exact ⟨span, hstart, hlocation⟩

/-- Violations of one file are sorted by their offsets. -/
theorem le_iff (hv : v.StandsIn ctx) (hw : w.StandsIn ctx) :
    Report.le v w = true ↔ v.location.offset ≤ w.location.offset := by
  obtain ⟨span, hstart, hlocation⟩ := hv
  obtain ⟨span', hstart', hlocation'⟩ := hw
  have horder : Report.order v.location w.location = compare span.start span'.start := by
    rw [hlocation, hlocation']
    exact Report.order_location hstart hstart'
  unfold Report.le
  rw [horder, hlocation, hlocation', Nat.isLE_compare]
  rfl

end Violation.StandsIn

/-- **A list of violations in source order**: the same violations, by offset, and at one offset as they
were listed. -/
structure InSourceOrder (found block : List Violation) : Prop where
  perm : block.Perm found
  sorted : block.Pairwise fun v w => v.location.offset ≤ w.location.offset
  stable : ∀ offset, block.filter (·.location.offset = offset) =
    found.filter (·.location.offset = offset)

/-- Sorting the violations of one file puts them in source order. -/
theorem inSourceOrder_mergeSort {ctx : FileContext} {found : List Violation}
    (h : ∀ v ∈ found, v.StandsIn ctx) : InSourceOrder found (found.mergeSort Report.le) where
  perm := List.mergeSort_perm found Report.le
  sorted := by
    have hsorted := List.pairwise_mergeSort Report.le_trans Report.le_total found
    apply hsorted.imp_of_mem
    intro v w hv hw hle
    exact ((h v (List.mem_mergeSort.1 hv)).le_iff (h w (List.mem_mergeSort.1 hw))).1 hle
  stable := by
    intro offset
    -- at one offset neither of two violations is above the other, so a stable sort leaves them
    apply filter_mergeSort Report.le_trans Report.le_total
    intro v hv w hw hoffset hoffset'
    rw [decide_eq_true_eq] at hoffset hoffset'
    exact ((h v hv).le_iff (h w hw)).2 (by omega)

/-- The nodes of the trees of a grammar start between two characters. -/
def Grammar.OnBoundaries (g : Grammar) : Prop :=
  ∀ text root, g text = some root → ∀ n ∈ root.nodes, isBoundary n.span.start text.toList = true

theorem InPreorder.standsIn {ctx : FileContext} {root : Tree} {vs : List Violation} {v : Violation}
    (h : InPreorder ctx root (vs.map (·.location)))
    (hnodes : ∀ n ∈ root.nodes, isBoundary n.span.start ctx.source.chars = true) (hv : v ∈ vs) :
    v.StandsIn ctx := by
  rcases h.exists_span (List.mem_map_of_mem hv) with htop | ⟨n, hn, hnode⟩
  · exact ⟨⟨0, 0⟩, isBoundary_zero _, htop⟩
  · exact ⟨n.span, hnodes n hn, hnode⟩

/-- The rule over texts reports places between characters. -/
theorem TextRule.BuiltIn.standsIn {r : TextRule} {ctx : FileContext} {v : Violation}
    (hr : r.BuiltIn) (hv : v ∈ r.check ctx) : v.StandsIn ctx := by
  have hmarks : v.Marks ctx [] := hr.marks hv
  obtain ⟨span, fix, hmarked, hlocation, -⟩ := hmarks
  have hfits := hmarked.fits_span fun n hn => absurd hn List.not_mem_nil
  exact ⟨span, hfits.start_boundary, hlocation⟩

namespace Analyzer

variable {a : Analyzer} {g : Grammar} {d : Disk} {p : Path} {paths : List Path} {content : String}
  {vs : List Violation} {v : Violation} {report total : Report}

/-- The violations that a rule finds in a file with a tree. -/
def inTree (a : Analyzer) (p : Path) (content : String) (root : Tree) (r : Rule) : List Violation :=
  a.runRule (.inProject p content a.root) (.ofText content.toList)
    ⟨root, .ofTree (.ofString content) root⟩ r

/-- The violations that a rule over texts finds in a file. -/
def inText (a : Analyzer) (p : Path) (content : String) (r : TextRule) : List Violation :=
  a.runTextRule (.inProject p content a.root) (.ofText content.toList) r

/-- **How the violations of a file come about**: rule by rule, and those of a rule in pre-order; behind
them come those of the rules over texts, each from left to right. -/
inductive FoundBy (a : Analyzer) (g : Grammar) (p : Path) (content : String) :
    List Violation → Prop
  | text (hruby : isRuby p = false)
      (htext : ∀ r ∈ a.textRulesFor p, ((a.inText p content r).map (·.location)).Pairwise
        fun l k => l.offset < k.offset) :
      FoundBy a g p content ((a.textRulesFor p).flatMap (a.inText p content))
  | ruby (hruby : isRuby p = true) (root : Tree) (hroot : g content = some root)
      (htree : ∀ r ∈ a.rules, InPreorder (.inProject p content a.root) root
        ((a.inTree p content root r).map (·.location)))
      (htext : ∀ r ∈ a.textRulesFor p, ((a.inText p content r).map (·.location)).Pairwise
        fun l k => l.offset < k.offset) :
      FoundBy a g p content (a.rules.flatMap (a.inTree p content root) ++
        (a.textRulesFor p).flatMap (a.inText p content))

theorem foundBy_of_analyzeSource (ha : a.BuiltIn) (h : a.analyzeSource g p content = .ok vs) :
    a.FoundBy g p content vs := by
  have htext : ∀ r ∈ a.textRulesFor p, ((a.inText p content r).map (·.location)).Pairwise
      fun l k => l.offset < k.offset := by
    intro r hr
    exact pairwise_offset_runTextRule (ha.textRules r (List.mem_of_mem_filter hr))
  unfold analyzeSource at h
  simp only at h
  split at h
  · rename_i hruby
    split at h
    · cases h
    · rename_i file hfile
      obtain ⟨root, hroot, rfl⟩ := ParsedFile.exists_root hfile
      cases h
      exact .ruby hruby root hroot (fun r hr => inPreorder_runRule (ha.rules r hr) root) htext
  · rename_i hruby
    cases h
    exact .text (by simpa using hruby) htext

/-- **An analyzer of built-in rules reports places between characters**, if the nodes start at such. -/
theorem standsIn_of_mem (ha : a.BuiltIn) (hg : g.OnBoundaries)
    (h : a.analyzeSource g p content = .ok vs) (hv : v ∈ vs) :
    v.StandsIn (.inProject p content a.root) := by
  rcases exists_check_of_mem h hv with ⟨r, hr, w, hw, hsettled⟩ | ⟨root, hroot, r, hr, w, hw, hsettled⟩
  · exact ((ha.textRules r hr).standsIn hw).settled hsettled
  · have hwalk := (ha.rules r hr).inPreorder (.inProject p content a.root) root
    exact (hwalk.standsIn (hg content root hroot) hw).settled hsettled

/-- What a run finds in a file; nothing if the file cannot be read as Ruby. -/
def found (a : Analyzer) (g : Grammar) (d : Disk) (p : Path) : List Violation :=
  match d.text? p with
  | none => []
  | some content =>
    match a.analyzeSource g p content with
    | .ok violations => violations
    | .error _ => []

theorem found_cases (htext : d.text? p = some content) :
    a.analyzeSource g p content = .ok (a.found g d p) ∨
      (∃ e, a.analyzeSource g p content = .error e) ∧ a.found g d p = [] := by
  unfold found
  rw [htext]
  simp only
  cases a.analyzeSource g p content with
  | ok violations => exact Or.inl rfl
  | error e => exact Or.inr ⟨⟨e, rfl⟩, rfl⟩

theorem standsIn_of_mem_found (ha : a.BuiltIn) (hg : g.OnBoundaries)
    (htext : d.text? p = some content) (hv : v ∈ a.found g d p) :
    v.StandsIn (.inProject p content a.root) := by
  rcases found_cases htext with h | ⟨-, hnone⟩
  · exact standsIn_of_mem ha hg h hv
  · rw [hnone] at hv
    exact absurd hv List.not_mem_nil

/-- A run over files that comes to its end has read all of them, and adds what it finds in each. -/
theorem violations_of_analyzeFiles (h : (a.analyzeFiles g d paths report).result = .ok total) :
    total.violations = report.violations ++ paths.flatMap (a.found g d) ∧
      ∀ p ∈ paths, ∃ content, d.text? p = some content := by
  induction paths generalizing report with
  | nil =>
    cases h
    exact ⟨(List.append_nil _).symm, List.forall_mem_nil _⟩
  | cons p paths ih =>
    rw [analyzeFiles] at h
    cases htext : d.text? p with
    | none =>
      rw [htext] at h
      cases h
    | some content =>
      have hread : ∀ q ∈ p :: paths, (q ∈ paths → ∃ content, d.text? q = some content) →
          ∃ content, d.text? q = some content := by
        intro q hq hrest
        rcases List.mem_cons.1 hq with rfl | hq
        · exact ⟨content, htext⟩
        · exact hrest hq
      rw [htext] at h
      simp only at h
      rw [List.flatMap_cons]
      rcases found_cases (a := a) (g := g) htext with hfound | ⟨⟨e, he⟩, hfound⟩
      · rw [hfound] at h
        obtain ⟨htotal, hpaths⟩ := ih h
        refine ⟨?_, fun q hq => hread q hq (hpaths q)⟩
        rw [htotal]
        exact List.append_assoc _ _ _
      · -- a file that cannot be read as Ruby adds nothing, unless it ends the run
        rw [he] at h
        simp only at h
        split at h
        · cases h
        · obtain ⟨htotal, hpaths⟩ := ih h
          refine ⟨?_, fun q hq => hread q hq (hpaths q)⟩
          rw [htotal, hfound]
          rfl

/-- **The report of a run**: what it finds in the files, sorted. -/
theorem exists_paths (h : (a.analyze g d).result = .ok report) :
    ∃ paths, a.discover d = .ok paths ∧
      report.violations = (paths.flatMap (a.found g d)).mergeSort Report.le ∧
      ∀ p ∈ paths, ∃ content, d.text? p = some content := by
  unfold analyze at h
  cases hpaths : a.discover d with
  | error e =>
    rw [hpaths] at h
    cases h
  | ok paths =>
    rw [hpaths] at h
    simp only at h
    cases hrun : (a.analyzeFiles g d paths {}).result with
    | error e =>
      rw [hrun] at h
      cases h
    | ok total =>
      rw [hrun] at h
      cases h
      obtain ⟨htotal, hread⟩ := violations_of_analyzeFiles hrun
      refine ⟨paths, rfl, ?_, hread⟩
      unfold Report.sort
      simp only
      rw [htotal]
      rfl

/-- The files of a report are in strict order as they are shown. -/
theorem relative_strict (hd : d.WellFormed) (h : a.discover d = .ok paths) :
    paths.Pairwise fun p q => (a.relative p).compare (a.relative q) = .lt := by
  obtain ⟨walked, hwalk, -⟩ := exists_walk h
  apply (discover_strict hd h).imp_of_mem
  intro p q hp hq hlt
  rw [compare_relative hd hwalk (mem_walk_of_mem_discover h hwalk hp)
    (mem_walk_of_mem_discover h hwalk hq)]
  exact hlt

/-- What is found in a file comes before what is found in a later one. -/
theorem pairwise_found (ha : a.BuiltIn) (hg : g.OnBoundaries) (hd : d.WellFormed)
    (h : a.discover d = .ok paths) (hread : ∀ p ∈ paths, ∃ content, d.text? p = some content) :
    paths.Pairwise fun p q =>
      ∀ v ∈ a.found g d p, ∀ w ∈ a.found g d q, Report.le v w = true := by
  apply (relative_strict hd h).imp_of_mem
  intro p q hp hq hlt v hv w hw
  obtain ⟨content, htext⟩ := hread p hp
  obtain ⟨content', htext'⟩ := hread q hq
  have hfile : v.location.file = a.relative p := (standsIn_of_mem_found ha hg htext hv).file_eq
  have hfile' : w.location.file = a.relative q := (standsIn_of_mem_found ha hg htext' hw).file_eq
  have horder : Report.order v.location w.location = .lt := by
    apply Report.order_of_file_lt
    rw [hfile, hfile']
    exact hlt
  unfold Report.le
  rw [horder]
  rfl

end Analyzer

/-- **Reported order is source order.** Lines and columns count the text in front of an offset, and
grow with the offset. So the report of a run has one block of violations for each file, in the order of
the files as they are shown, and each block is in the order of offsets; violations at one offset stand
as the analyzer produced them, rule by rule and in pre-order. -/
theorem Analyzer.analyze_source_order (a : Analyzer) (g : Grammar) (d : Disk) (ha : a.BuiltIn)
    (hg : g.OnBoundaries) (hd : d.WellFormed) :
    (∀ (s : Source) (offset : Nat), isBoundary (min offset s.size) s.chars = true →
      ∃ front, upTo? (min offset s.size) s.chars = some front ∧
        s.position offset = (1 + ((bytes s.chars).take (min offset s.size)).count 0x0A,
          1 + (front.rtakeWhile (· ≠ '\n')).length)) ∧
    (∀ (s : Source) (m n : Nat), isBoundary m s.chars = true → isBoundary n s.chars = true →
      m < n → Prod.Lex (· < ·) (· < ·) (s.position m) (s.position n)) ∧
    (∀ p content vs, a.analyzeSource g p content = .ok vs → a.FoundBy g p content vs) ∧
    ∀ report, (a.analyze g d).result = .ok report →
      ∃ (paths : List Path) (block : Path → List Violation), a.discover d = .ok paths ∧
        report.violations = paths.flatMap block ∧
        (paths.Pairwise fun p q => (a.relative p).compare (a.relative q) = .lt) ∧
        ∀ p ∈ paths, ∃ content, d.text? p = some content ∧
          (∀ v ∈ block p, v.location.file = a.relative p ∧
            isBoundary v.location.offset content.toList = true) ∧
          ((∃ vs, a.analyzeSource g p content = .ok vs ∧ InSourceOrder vs (block p)) ∨
            (∃ e, a.analyzeSource g p content = .error e) ∧ block p = []) := by
  refine ⟨Source.position_eq, ?_, fun p content vs => foundBy_of_analyzeSource ha, ?_⟩
  · intro s m n hm hn hlt
    exact Prod.lex_def.2 (Source.position_lt hm hn hlt)
  · intro report h
    obtain ⟨paths, hpaths, hreport, hread⟩ := exists_paths h
    refine ⟨paths, fun p => (a.found g d p).mergeSort Report.le, hpaths, ?_,
      relative_strict hd hpaths, ?_⟩
    · rw [hreport]
      exact mergeSort_flatMap Report.le_trans Report.le_total (pairwise_found ha hg hd hpaths hread)
    · intro p hp
      obtain ⟨content, htext⟩ := hread p hp
      have hstands : ∀ v ∈ a.found g d p, v.StandsIn (.inProject p content a.root) :=
        fun v hv => standsIn_of_mem_found ha hg htext hv
      refine ⟨content, htext, ?_, ?_⟩
      · intro v hv
        have hv' := hstands v (List.mem_mergeSort.1 hv)
        exact ⟨hv'.file_eq, hv'.isBoundary_offset⟩
      · rcases found_cases (a := a) (g := g) htext with hfound | ⟨herror, hfound⟩
        · exact Or.inl ⟨_, hfound, inSourceOrder_mergeSort hstands⟩
        · have hnone : (a.found g d p).mergeSort Report.le = [] := by
            rw [hfound]
            exact List.mergeSort_nil
          exact Or.inr ⟨herror, hnone⟩

/-- An analyzer with three rules that report at once: a constant, the file, and a call. -/
def threeRules : Analyzer where
  root := ⟨"/"⟩
  surroundings := { workingDir := ⟨"/"⟩ }
  rules := [ConstantPrefix.rule {}, FrozenLiteral.rule, noReload]
  textRules := []
  exclude := []
  config := {}
  failOnParseError := false

/-- A text with a character of two bytes. Its call starts where the file does. -/
def wideReload : String := "\"é\".reload\nA\n"

/-- The grammar of this text. -/
def wideReloads : Grammar := fun text =>
  if text = wideReload then
    some (.node { kind := .other "program", span := ⟨0, 14⟩ }
      [.node { kind := .call, span := ⟨0, 11⟩ }
        [.node { kind := .string, span := ⟨0, 4⟩, field := some .receiver } [],
          .node { kind := .identifier, span := ⟨5, 11⟩, field := some .method } []],
        .node { kind := .constant, span := ⟨12, 13⟩ } []])
  else none

/-- A disk with the text in two files. -/
def twoReloads : Disk where
  files := [(["a-b.rb"], .text wideReload), (["a", "c.rb"], .text wideReload)]
  dirs := [["a"]]

theorem wideReloads_onBoundaries : wideReloads.OnBoundaries := by
  intro text root h
  unfold wideReloads at h
  split at h
  · rename_i htext
    cases h
    rw [htext]
    decide +kernel
  · cases h

theorem discover_twoReloads :
    threeRules.discover twoReloads = .ok [⟨"/a/c.rb"⟩, ⟨"/a-b.rb"⟩] := by
  have hwalk : threeRules.walk twoReloads = .ok [⟨"/a-b.rb"⟩, ⟨"/a/c.rb"⟩] := by
    decide +kernel
  have hkept : [⟨"/a-b.rb"⟩, ⟨"/a/c.rb"⟩].filter
      (fun p => threeRules.wants p && !threeRules.excludes p) =
        [⟨"/a-b.rb"⟩, ⟨"/a/c.rb"⟩] := by decide +kernel
  have hlate : ((⟨"/a-b.rb"⟩ : Path).compare ⟨"/a/c.rb"⟩).isLE = false := by decide +kernel
  rw [Analyzer.discover, hwalk, Except.map, hkept]
  simp [List.mergeSort, hlate]

theorem exists_report_twoReloads :
    ∃ report, (threeRules.analyze wideReloads twoReloads).result = .ok report := by
  have hblamed : threeRules.blamed? wideReloads twoReloads [⟨"/a/c.rb"⟩, ⟨"/a-b.rb"⟩] = none := by
    decide +kernel
  unfold Analyzer.analyze
  rw [discover_twoReloads]
  simp only
  cases hrun : (threeRules.analyzeFiles wideReloads twoReloads
      [⟨"/a/c.rb"⟩, ⟨"/a-b.rb"⟩] {}).result with
  | error e =>
    obtain ⟨p, hp⟩ := (Analyzer.analyzeFiles_eq_error_iff _ _).1 hrun
    rw [hblamed] at hp
    cases hp
  | ok total => exact ⟨_, rfl⟩

/-- In each file the constant is found first, and the file and the call at one offset before it. -/
theorem Analyzer.analyze_source_order_two_reloads :
    threeRules.BuiltIn ∧ wideReloads.OnBoundaries ∧ twoReloads.WellFormed ∧
      ∃ (report : Report) (block : Path → List Violation),
        (threeRules.analyze wideReloads twoReloads).result = .ok report ∧
        report.violations = block ⟨"/a/c.rb"⟩ ++ block ⟨"/a-b.rb"⟩ ∧
        ∀ p ∈ [(⟨"/a/c.rb"⟩ : Path), ⟨"/a-b.rb"⟩], ∃ vs,
          threeRules.analyzeSource wideReloads p wideReload = .ok vs ∧
          vs.map (·.location.offset) = [12, 0, 0] ∧ InSourceOrder vs (block p) := by
  have ha : threeRules.BuiltIn := by
    refine ⟨?_, List.forall_mem_nil _⟩
    intro r hr
    simp only [threeRules, List.mem_cons, List.not_mem_nil, or_false] at hr
    rcases hr with rfl | rfl | rfl
    · exact .constantPrefix {}
    · exact .frozenLiteral
    · exact .noReload
  have hd : twoReloads.WellFormed := by decide
  obtain ⟨-, -, -, hruns⟩ :=
    analyze_source_order threeRules wideReloads twoReloads ha wideReloads_onBoundaries hd
  obtain ⟨report, hreport⟩ := exists_report_twoReloads
  obtain ⟨paths, block, hpaths, hblocks, -, hfiles⟩ := hruns report hreport
  rw [discover_twoReloads] at hpaths
  cases hpaths
  refine ⟨ha, wideReloads_onBoundaries, hd, report, block, hreport, by simpa using hblocks, ?_⟩
  intro p hp
  have htext : twoReloads.text? p = some wideReload := by
    rcases List.mem_pair.1 hp with rfl | rfl
    · decide +kernel
    · decide +kernel
  have hoffsets : (threeRules.analyzeSource wideReloads p wideReload).toOption.map
      (·.map (·.location.offset)) = some [12, 0, 0] := by
    rcases List.mem_pair.1 hp with rfl | rfl
    · cbv
    · cbv
  obtain ⟨content, hcontent, -, hblock⟩ := hfiles p hp
  rw [htext] at hcontent
  cases hcontent
  rcases hblock with ⟨vs, hvs, horder⟩ | ⟨⟨e, he⟩, -⟩
  · rw [hvs] at hoffsets
    exact ⟨vs, hvs, Option.some.inj hoffsets, horder⟩
  · rw [he] at hoffsets
    cases hoffsets

end RubyLint
