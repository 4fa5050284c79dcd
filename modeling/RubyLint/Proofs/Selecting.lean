import Mathlib
import RubyLint.Proofs.Catalog

/-!
# Choosing rules by name

Rules do not see each other: what one of them reports on a file depends neither on the other rules
that run nor on their violations. So a run with a few rules reports what the full run reports of
them.

* `Selection.catalogue`: all rules; `Selection.infos`, `Selection.names`: how chosen rules present
  themselves.
* `byNames_infos`, `mem_names_byNames`, `mem_rules_byNames`: which rules are chosen.
* `filter_flatMap_signed`: the violations in the names of some rules are those of these rules.
* `Analyzer.analyzeSource_byNames`: **choosing rules is a projection of the full run.**
-/

namespace RubyLint

variable {config : Config} {words : List String}

namespace Selection

/-- All rules of the catalogue. -/
def catalogue (config : Config) : Selection :=
  ⟨allRules config, allTextRules config⟩

/-- How the chosen rules present themselves. -/
def infos (s : Selection) : List RuleInfo :=
  s.rules.map (·.toRuleInfo) ++ s.textRules.map (·.toRuleInfo)

/-- The names of the chosen rules. -/
def names (s : Selection) : List String :=
  s.infos.map (·.name)

/-- The chosen rules present themselves as those of the catalogue that are called. -/
theorem byNames_infos (words : List String) (config : Config) :
    (byNames words config).infos =
      (catalogue config).infos.filter fun i => words.any i.isCalled := by
  unfold infos byNames catalogue
  rw [List.filter_append, List.filter_map, List.filter_map]
  rfl

/-- No two rules of the catalogue share a name. -/
theorem nodup_names_catalogue (config : Config) : (catalogue config).names.Nodup := by
  have hnames : (catalogue config).names = ruleNames ++ [LiquidWords.rule.name] := rfl
  rw [hnames]
  decide

/-- **A rule of the catalogue is chosen exactly when it is called.** Its name cannot stand for
another rule. -/
theorem mem_names_byNames {i : RuleInfo} (hi : i ∈ (catalogue config).infos) :
    i.name ∈ (byNames words config).names ↔ words.any i.isCalled = true := by
  unfold names
  rw [byNames_infos, List.mem_map]
  constructor
  · rintro ⟨j, hj, hname⟩
    obtain ⟨hj, hcalled⟩ := List.mem_filter.1 hj
    have heq : j = i := List.inj_on_of_nodup_map (nodup_names_catalogue config) hj hi hname
    exact heq ▸ hcalled
  · intro hcalled
    exact ⟨i, List.mem_filter.2 ⟨hi, hcalled⟩, rfl⟩

/-- Only which words are there matters, not how often or in which order. -/
theorem byNames_congr {words' : List String} (h : ∀ word, word ∈ words' ↔ word ∈ words) :
    byNames words' config = byNames words config := by
  have hany : ∀ i : RuleInfo, words'.any i.isCalled = words.any i.isCalled := by
    intro i
    rw [Bool.eq_iff_iff, List.any_eq_true, List.any_eq_true]
    simp only [h]
  unfold byNames
  simp only [hany]

theorem isCalled_iff {i : RuleInfo} {word : String} :
    i.isCalled word = true ↔ word = i.name ∨ word = i.code := by
  unfold RuleInfo.isCalled
  rw [Bool.or_eq_true, beq_iff_eq, beq_iff_eq]

theorem any_isCalled_iff {i : RuleInfo} :
    words.any i.isCalled = true ↔ i.name ∈ words ∨ i.code ∈ words := by
  simp only [List.any_eq_true, isCalled_iff, and_or_left, exists_or, exists_eq_right]

/-- The rules over Ruby files that are chosen. -/
theorem mem_rules_byNames {r : Rule} : r ∈ (byNames words config).rules ↔
    r ∈ allRules config ∧ (r.name ∈ words ∨ r.code ∈ words) := by
  unfold byNames
  rw [List.mem_filter, any_isCalled_iff]

/-- The rules over texts that are chosen. -/
theorem mem_textRules_byNames {r : TextRule} : r ∈ (byNames words config).textRules ↔
    r ∈ allTextRules config ∧ (r.name ∈ words ∨ r.code ∈ words) := by
  unfold byNames
  rw [List.mem_filter, any_isCalled_iff]

/-- The unknown words are those that call no rule of the catalogue: a rule that a word calls is
chosen. -/
theorem unknown_byNames (words : List String) (config : Config) :
    (byNames words config).unknown words = words.filter fun word =>
      decide (∀ i ∈ (catalogue config).infos, word ≠ i.name ∧ word ≠ i.code) := by
  unfold unknown
  refine List.filter_congr fun word hword => ?_
  have hinfos : (!(byNames words config).rules.any (·.isCalled word) &&
      !(byNames words config).textRules.any (·.isCalled word)) =
      !(byNames words config).infos.any (·.isCalled word) := by
    unfold infos
    rw [List.any_append, List.any_map, List.any_map, Bool.not_or]
    rfl
  rw [hinfos, byNames_infos, Bool.eq_iff_iff, decide_eq_true_eq, Bool.not_eq_true',
    List.any_eq_false]
  constructor
  · intro hnone i hi
    rw [← not_or, ← isCalled_iff]
    intro hcalled
    exact hnone i (List.mem_filter.2 ⟨hi, List.any_eq_true.2 ⟨word, hword, hcalled⟩⟩) hcalled
  · intro hall i hi
    rw [isCalled_iff, not_or]
    exact hall i (List.mem_of_mem_filter hi)

end Selection

/-- **Violations sorted by rule again**: where every rule signs what it reports, the violations in
the names of some rules are what these rules report. -/
theorem filter_flatMap_signed {α : Type} (name : α → String) {rules : List α}
    {run : α → List Violation} {keep : α → Bool} {chosen : List String}
    (hsigned : ∀ r ∈ rules, ∀ v ∈ run r, v.rule = name r)
    (hchosen : ∀ r ∈ rules, name r ∈ chosen ↔ keep r = true) :
    (rules.flatMap run).filter (fun v => decide (v.rule ∈ chosen)) =
      (rules.filter keep).flatMap run := by
  induction rules with
  | nil => rfl
  | cons r rules ih =>
    obtain ⟨hr, hrules⟩ := List.forall_mem_cons.1 hsigned
    obtain ⟨hkeep, hrest⟩ := List.forall_mem_cons.1 hchosen
    rw [List.flatMap_cons, List.filter_append, ih hrules hrest]
    by_cases hk : keep r = true
    · have hall : (run r).filter (fun v => decide (v.rule ∈ chosen)) = run r := by
        refine List.filter_eq_self.2 fun v hv => ?_
        rw [decide_eq_true_eq, hr v hv]
        exact hkeep.2 hk
      rw [hall, List.filter_cons_of_pos hk, List.flatMap_cons]
    · have hnone : (run r).filter (fun v => decide (v.rule ∈ chosen)) = [] := by
        refine List.filter_eq_nil_iff.2 fun v hv => ?_
        rw [decide_eq_true_eq, hr v hv]
        exact fun hmem => hk (hkeep.1 hmem)
      rw [hnone, List.filter_cons_of_neg hk, List.nil_append]

namespace Analyzer

/-- The analyzer with these rules instead of its own. -/
def selecting (a : Analyzer) (s : Selection) : Analyzer :=
  { a with rules := s.rules, textRules := s.textRules }

/-- A run with chosen rules, rule by rule: whether the text can be read has nothing to do with
rules. -/
theorem analyzeSource_selecting (a : Analyzer) (s : Selection) (grammar : Grammar) (path : Path)
    (content : String) :
    (a.selecting s).analyzeSource grammar path content =
      if isRuby path then
        (ParsedFile.parse grammar (.ofString content)).map fun file =>
          s.rules.flatMap
              (a.runRule (.inProject path content a.root) (.ofText content.toList) file) ++
            ((a.selecting s).textRulesFor path).flatMap
              (a.runTextRule (.inProject path content a.root) (.ofText content.toList))
      else .ok (((a.selecting s).textRulesFor path).flatMap
        (a.runTextRule (.inProject path content a.root) (.ofText content.toList))) := by
  unfold analyzeSource
  split
  · have hsource : (FileContext.inProject path content (a.selecting s).root).source =
        .ofString content := rfl
    simp only [hsource]
    cases ParsedFile.parse grammar (.ofString content) <;> rfl
  · rfl

/-- What a projection keeps of the rules over Ruby files. -/
theorem filter_rules (a : Analyzer) (config : Config) (words : List String) (ctx : FileContext)
    (index : AllowIndex) (file : ParsedFile) :
    ((Selection.catalogue config).rules.flatMap (a.runRule ctx index file)).filter
        (fun v => decide (v.rule ∈ (Selection.byNames words config).names)) =
      (Selection.byNames words config).rules.flatMap (a.runRule ctx index file) := by
  have hchosen : (Selection.byNames words config).rules =
      (allRules config).filter fun r => words.any r.isCalled := rfl
  rw [hchosen]
  refine filter_flatMap_signed (fun r : Rule => r.name) (fun r hr v hv => ?_) (fun r hr => ?_)
  · exact rule_of_mem_runRule (allRules_signs config r hr) hv
  · exact Selection.mem_names_byNames (List.mem_append_left _ (List.mem_map_of_mem hr))

/-- What a projection keeps of the text rules that run on a file. -/
theorem filter_textRules (a : Analyzer) (config : Config) (words : List String) (ctx : FileContext)
    (index : AllowIndex) (path : Path) :
    (((a.selecting (.catalogue config)).textRulesFor path).flatMap (a.runTextRule ctx index)).filter
        (fun v => decide (v.rule ∈ (Selection.byNames words config).names)) =
      ((a.selecting (.byNames words config)).textRulesFor path).flatMap
        (a.runTextRule ctx index) := by
  -- which rules are chosen and which of them run on a file are two filters
  have hruns : (a.selecting (.byNames words config)).textRulesFor path =
      ((a.selecting (.catalogue config)).textRulesFor path).filter
        fun r => words.any r.isCalled :=
    List.filter_comm _ _ _
  rw [hruns]
  refine filter_flatMap_signed (fun r : TextRule => r.name) (fun r hr v hv => ?_) (fun r hr => ?_)
  · have hr : r ∈ allTextRules config := List.mem_of_mem_filter hr
    exact rule_of_mem_runTextRule (allTextRules_signs config r hr) hv
  · have hr : r ∈ allTextRules config := List.mem_of_mem_filter hr
    exact Selection.mem_names_byNames (List.mem_append_right _ (List.mem_map_of_mem hr))

/-- **Choosing rules is a projection of the full run.** The chosen rules are those of the catalogue whose
name or code is among the words. With them a file gives those violations of the full run, in the same
order, that are in the name of a chosen rule, and it fails exactly when the full run does, with the
same error. Neither the order nor the number of the words matters, and those that are told to be
unknown are the ones that are neither the name nor the code of a rule. -/
theorem analyzeSource_byNames (a : Analyzer) (config : Config) (words : List String)
    (grammar : Grammar) (path : Path) (content : String) :
    (∀ r, r ∈ (Selection.byNames words config).rules ↔
      r ∈ allRules config ∧ (r.name ∈ words ∨ r.code ∈ words)) ∧
    (∀ r, r ∈ (Selection.byNames words config).textRules ↔
      r ∈ allTextRules config ∧ (r.name ∈ words ∨ r.code ∈ words)) ∧
    (a.selecting (.byNames words config)).analyzeSource grammar path content =
      ((a.selecting (.catalogue config)).analyzeSource grammar path content).map
        (List.filter fun v => decide (v.rule ∈ (Selection.byNames words config).names)) ∧
    (∀ e, (a.selecting (.byNames words config)).analyzeSource grammar path content = .error e ↔
      (a.selecting (.catalogue config)).analyzeSource grammar path content = .error e) ∧
    (∀ words', (∀ word, word ∈ words' ↔ word ∈ words) →
      Selection.byNames words' config = Selection.byNames words config) ∧
    (Selection.byNames words config).unknown words = words.filter fun word =>
      decide (∀ i ∈ (Selection.catalogue config).infos, word ≠ i.name ∧ word ≠ i.code) := by
  have hprojection :
      (a.selecting (.byNames words config)).analyzeSource grammar path content =
        ((a.selecting (.catalogue config)).analyzeSource grammar path content).map
          (List.filter fun v => decide (v.rule ∈ (Selection.byNames words config).names)) := by
    rw [analyzeSource_selecting, analyzeSource_selecting, ← filter_textRules]
    split
    · cases ParsedFile.parse grammar (.ofString content) with
      | error e => rfl
      | ok file =>
        simp only [Except.map]
        rw [List.filter_append, filter_rules]
    · rfl
  refine ⟨fun r => Selection.mem_rules_byNames, fun r => Selection.mem_textRules_byNames, hprojection,
    fun e => ?_, fun words' => Selection.byNames_congr, Selection.unknown_byNames words config⟩
  rw [hprojection]
  cases (a.selecting (.catalogue config)).analyzeSource grammar path content with
  | error e' => rfl
  | ok violations => simp [Except.map]

/-- A line that breaks two rules. -/
def prefixedReload : String := "Foo.reload\n"

/-- The tree of that line. -/
def prefixedReloadTree : Tree :=
  .node { kind := .other "program", span := ⟨0, 11⟩ }
    [.node { kind := .call, span := ⟨0, 10⟩ }
      [.node { kind := .constant, span := ⟨0, 3⟩, field := some .receiver } [],
        .node { kind := .identifier, span := ⟨4, 10⟩, field := some .method } []]]

/-- An analyzer without a configuration. -/
def unconfigured : Analyzer where
  root := ⟨"/"⟩
  surroundings := { workingDir := ⟨"/"⟩ }
  rules := []
  textRules := []
  exclude := []
  config := {}
  failOnParseError := false

/-- Of the two violations of the line the one of the rule that is called by its code is reported. -/
theorem analyzeSource_byNames_reload :
    (Selection.byNames ["RBL005", "reload", "RBL005"] {}).names = ["no-reload"] ∧
      (Selection.byNames ["RBL005", "reload", "RBL005"] {}).unknown ["RBL005", "reload", "RBL005"] =
        ["reload"] ∧
      Selection.byNames ["reload", "RBL005"] {} = Selection.byNames ["RBL005", "reload", "RBL005"] {} ∧
      ((unconfigured.selecting (.catalogue {})).analyzeSource (fun _ => some prefixedReloadTree)
        ⟨"/a.rb"⟩ prefixedReload).map (List.map (·.rule)) =
          .ok ["require-constant-prefix", "no-reload"] ∧
      ((unconfigured.selecting (.byNames ["RBL005", "reload", "RBL005"] {})).analyzeSource
        (fun _ => some prefixedReloadTree) ⟨"/a.rb"⟩ prefixedReload).map (List.map (·.rule)) =
          .ok ["no-reload"] := by
  obtain ⟨-, -, hprojection, -, hwords, hunknown⟩ :=
    analyzeSource_byNames unconfigured {} ["RBL005", "reload", "RBL005"]
      (fun _ => some prefixedReloadTree) ⟨"/a.rb"⟩ prefixedReload
  have hnames : (Selection.byNames ["RBL005", "reload", "RBL005"] {}).names = ["no-reload"] := rfl
  have hall : ((unconfigured.selecting (.catalogue {})).analyzeSource
      (fun _ => some prefixedReloadTree) ⟨"/a.rb"⟩ prefixedReload).map (List.map (·.rule)) =
        .ok ["require-constant-prefix", "no-reload"] := by
    cbv
  refine ⟨hnames, hunknown, hwords _ (by simp), hall, ?_⟩
  rw [hprojection, hnames]
  cases hfull : (unconfigured.selecting (.catalogue {})).analyzeSource
      (fun _ => some prefixedReloadTree) ⟨"/a.rb"⟩ prefixedReload with
  | error e =>
    rw [hfull] at hall
    cases hall
  | ok vs =>
    rw [hfull] at hall
    have hrules : vs.map (·.rule) = ["require-constant-prefix", "no-reload"] := Except.ok.inj hall
    -- the projection goes by the rules' names alone
    have hkept : (vs.filter fun v => decide (v.rule ∈ ["no-reload"])).map (·.rule) =
        (vs.map (·.rule)).filter fun rule => decide (rule ∈ ["no-reload"]) := by
      rw [List.filter_map]
      rfl
    rw [hrules] at hkept
    exact congrArg Except.ok hkept

end Analyzer

end RubyLint
