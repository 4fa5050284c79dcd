import RubyLint.Proofs.Selecting

/-!
# Which rules run

A preset chooses rules, a configuration opts in to others, and an analyzer passes over those that are
switched off. The three steps together come to one list: the rules of the preset that are not switched
off, and behind them the others that are switched on.

* `newcomers`: the rules that opting in adds, told by their places and not by a loop.
* `withOptedIn_eq`: **opting in puts the newcomers behind the chosen rules.**
* `inForce`: the rules that run; `filter_withOptedIn`: what is left of a choice after the last step.
* `Analyzer.analyzeSource_inForce`: **an analyzer with a preset runs exactly these, each once.**
-/

namespace RubyLint

/-- What a configuration says on whether a rule runs, if it says anything. -/
def Config.enabled? (c : Config) (rule : String) : Option Bool :=
  (c.rule? rule).bind (·.enabled)

namespace Config

variable {c : Config} {rule : String}

theorem isEnabled_iff : c.isEnabled rule = true ↔ c.enabled? rule ≠ some false := by
  unfold isEnabled enabled?
  cases (c.rule? rule).bind (·.enabled) with
  | none => simp
  | some enabled => cases enabled <;> simp

theorem isOptedIn_iff : c.isOptedIn rule = true ↔ c.enabled? rule = some true := by
  unfold isOptedIn enabled?
  rw [beq_iff_eq]

end Config

section OptingIn

variable {α : Type} {config : Config} {name : α → String} {selected available : List α} {r : α}

/-- **The rules that opting in adds** to chosen ones: those that are switched on and whose name is
neither that of a chosen rule nor that of a rule in front of them. -/
def newcomers (config : Config) (name : α → String) (selected available : List α) : List α :=
  (available.zipIdx.filter fun entry =>
    config.enabled? (name entry.1) = some true ∧
      name entry.1 ∉ (selected ++ available.take entry.2).map name).map Prod.fst

theorem newcomers_nil : newcomers config name selected [] = [] := rfl

/-- The first rule of a list is a newcomer or not; either way the others see it in front of them. -/
theorem newcomers_cons : newcomers config name selected (r :: available) =
    if config.enabled? (name r) = some true ∧ name r ∉ selected.map name then
      r :: newcomers config name (selected ++ [r]) available
    else newcomers config name (selected ++ [r]) available := by
  have hrest : (((available.zipIdx 1).filter fun entry =>
      config.enabled? (name entry.1) = some true ∧
        name entry.1 ∉ (selected ++ (r :: available).take entry.2).map name).map Prod.fst) =
      newcomers config name (selected ++ [r]) available := by
    unfold newcomers
    rw [List.zipIdx_succ, List.filter_map, List.map_map]
    -- one place further on, the first rule is among those in front
    have hseen : ∀ i, selected ++ (r :: available).take (i + 1) =
        selected ++ [r] ++ available.take i := by
      intro i
      rw [List.take_succ_cons, List.append_assoc, List.singleton_append]
    simp only [Function.comp_def, hseen]
  unfold newcomers at hrest ⊢
  rw [List.zipIdx_cons, List.filter_cons]
  by_cases hnew : config.enabled? (name r) = some true ∧ name r ∉ selected.map name
  · rw [if_pos hnew, if_pos (by simpa using hnew), List.map_cons, hrest]
  · rw [if_neg hnew, if_neg (by simpa using hnew), hrest]

/-- Newcomers depend on the chosen rules only through their names, and among these only through the
names of rules that are switched on. -/
theorem newcomers_congr {selected' : List α}
    (h : ∀ r ∈ available, config.enabled? (name r) = some true →
      (name r ∈ selected.map name ↔ name r ∈ selected'.map name)) :
    newcomers config name selected available = newcomers config name selected' available := by
  unfold newcomers
  congr 1
  apply List.filter_congr
  rintro ⟨r, i⟩ hentry
  have hr : r ∈ available := List.fst_mem_of_mem_zipIdx hentry
  rw [decide_eq_decide, List.map_append, List.map_append, List.mem_append, List.mem_append]
  constructor
  · rintro ⟨hon, hnew⟩
    rw [h r hr hon] at hnew
    exact ⟨hon, hnew⟩
  · rintro ⟨hon, hnew⟩
    rw [← h r hr hon] at hnew
    exact ⟨hon, hnew⟩

/-- A rule that is switched on and whose name is free is added, and takes its name. -/
theorem newcomers_of_new (hnew : config.enabled? (name r) = some true ∧ name r ∉ selected.map name) :
    newcomers config name selected (r :: available) =
      r :: newcomers config name (selected ++ [r]) available := by
  rw [newcomers_cons, if_pos hnew]

/-- A rule that is passed over hides no later one: it is not switched on, or a chosen rule has its name
already. -/
theorem newcomers_of_old
    (hold : ¬ (config.enabled? (name r) = some true ∧ name r ∉ selected.map name)) :
    newcomers config name selected (r :: available) =
      newcomers config name selected available := by
  rw [newcomers_cons, if_neg hold]
  apply newcomers_congr
  intro s hs hon
  rw [List.map_append, List.mem_append]
  constructor
  · rintro (hmem | hmem)
    · exact hmem
    · have hname : name s = name r := by simpa using hmem
      rw [hname] at hon ⊢
      by_contra hfree
      exact hold ⟨hon, hfree⟩
  · exact Or.inl

/-- **Opting in puts the newcomers behind the chosen rules.** The loop asks whether a name is there
already, also among the rules that it has added itself. -/
theorem withOptedIn_eq (config : Config) (name : α → String) (selected available : List α) :
    withOptedIn config name selected available =
      selected ++ newcomers config name selected available := by
  induction available generalizing selected with
  | nil => rw [withOptedIn, newcomers_nil, List.append_nil]
  | cons r available ih =>
    have hasked : (config.isOptedIn (name r) && !selected.any fun s => name s == name r) = true ↔
        config.enabled? (name r) = some true ∧ name r ∉ selected.map name := by
      rw [Bool.and_eq_true, Config.isOptedIn_iff]
      simp
    rw [withOptedIn]
    by_cases hnew : config.enabled? (name r) = some true ∧ name r ∉ selected.map name
    · rw [if_pos (hasked.2 hnew), ih, newcomers_of_new hnew, List.append_assoc,
        List.singleton_append]
    · rw [if_neg (mt hasked.1 hnew), ih, newcomers_of_old hnew]

theorem newcomers_sublist : (newcomers config name selected available).Sublist available := by
  have hplaces := (List.filter_sublist (l := available.zipIdx) (p := fun entry =>
    config.enabled? (name entry.1) = some true ∧
      name entry.1 ∉ (selected ++ available.take entry.2).map name)).map Prod.fst
  rw [List.zipIdx_map_fst] at hplaces
  exact hplaces

theorem of_mem_newcomers (h : r ∈ newcomers config name selected available) :
    config.enabled? (name r) = some true ∧ name r ∉ selected.map name := by
  obtain ⟨entry, hentry, rfl⟩ := List.mem_map.1 h
  obtain ⟨hon, hnew⟩ := of_decide_eq_true (List.mem_filter.1 hentry).2
  refine ⟨hon, fun hmem => hnew ?_⟩
  rw [List.map_append]
  exact List.mem_append_left _ hmem

/-- No two newcomers share a name. -/
theorem nodup_newcomers : ((newcomers config name selected available).map name).Nodup := by
  induction available generalizing selected with
  | nil => exact List.nodup_nil
  | cons r available ih =>
    by_cases hnew : config.enabled? (name r) = some true ∧ name r ∉ selected.map name
    · rw [newcomers_of_new hnew, List.map_cons, List.nodup_cons]
      refine ⟨fun hmem => ?_, ih⟩
      obtain ⟨s, hs, hname⟩ := List.mem_map.1 hmem
      apply (of_mem_newcomers hs).2
      rw [hname]
      simp
    · rw [newcomers_of_old hnew]
      exact ih

/-- **Nothing that is switched on is missing** in the end: a rule of its name is there. -/
theorem mem_names_newcomers (hr : r ∈ available) (hon : config.enabled? (name r) = some true) :
    name r ∈ (selected ++ newcomers config name selected available).map name := by
  induction available generalizing selected with
  | nil => exact absurd hr List.not_mem_nil
  | cons s available ih =>
    by_cases hnew : config.enabled? (name s) = some true ∧ name s ∉ selected.map name
    · rw [newcomers_of_new hnew]
      rcases List.mem_cons.1 hr with rfl | hr
      · simp
      · have hrest : name r ∈
            (selected ++ [s] ++ newcomers config name (selected ++ [s]) available).map name := ih hr
        rw [List.append_assoc, List.singleton_append] at hrest
        exact hrest
    · rw [newcomers_of_old hnew]
      rcases List.mem_cons.1 hr with rfl | hr
      · have hmem : name r ∈ selected.map name := by
          by_contra hfree
          exact hnew ⟨hon, hfree⟩
        rw [List.map_append]
        exact List.mem_append_left _ hmem
      · exact ih hr

/-- In a list without two rules of one name, only the names of the chosen rules are in the way. -/
theorem newcomers_eq_filter (hnames : (available.map name).Nodup) :
    newcomers config name selected available = available.filter fun r =>
      config.enabled? (name r) = some true ∧ name r ∉ selected.map name := by
  induction available generalizing selected with
  | nil => rfl
  | cons r available ih =>
    rw [List.map_cons, List.nodup_cons] at hnames
    obtain ⟨hother, hnames⟩ := hnames
    -- the first rule stands in front of the others, but none of them has its name
    have hrest : newcomers config name (selected ++ [r]) available =
        newcomers config name selected available := by
      apply newcomers_congr
      intro s hs _
      have hne : name s ≠ name r := by
        intro heq
        rw [← heq] at hother
        exact hother (List.mem_map_of_mem hs)
      simp [hne]
    rw [newcomers_cons, hrest, ih hnames, List.filter_cons]
    simp only [decide_eq_true_eq]

/-- **The rules of a catalogue that run** when some of them are chosen by name: the chosen ones that are
not switched off, and behind them the others that are switched on, both in catalogue order. -/
def inForce (config : Config) (name : α → String) (chosen : String → Bool) (catalogue : List α) :
    List α :=
  (catalogue.filter fun r => chosen (name r) ∧ config.enabled? (name r) ≠ some false) ++
    catalogue.filter fun r => ¬ chosen (name r) ∧ config.enabled? (name r) = some true

variable {chosen : String → Bool} {catalogue : List α}

theorem mem_inForce : r ∈ inForce config name chosen catalogue ↔
    r ∈ catalogue ∧ (config.enabled? (name r) = some true ∨
      chosen (name r) = true ∧ config.enabled? (name r) ≠ some false) := by
  unfold inForce
  rw [List.mem_append, List.mem_filter, List.mem_filter, decide_eq_true_eq, decide_eq_true_eq]
  constructor
  · rintro (⟨hr, hown, hoff⟩ | ⟨hr, -, hon⟩)
    · exact ⟨hr, Or.inr ⟨hown, hoff⟩⟩
    · exact ⟨hr, Or.inl hon⟩
  · rintro ⟨hr, hon | ⟨hown, hoff⟩⟩
    · by_cases hown : chosen (name r) = true
      · exact Or.inl ⟨hr, hown, by simp [hon]⟩
      · exact Or.inr ⟨hr, hown, hon⟩
    · exact Or.inl ⟨hr, hown, hoff⟩

theorem nodup_inForce (hnames : (catalogue.map name).Nodup) :
    ((inForce config name chosen catalogue).map name).Nodup := by
  unfold inForce
  rw [List.map_append]
  refine List.Nodup.append (hnames.sublist (List.filter_sublist.map name))
    (hnames.sublist (List.filter_sublist.map name)) ?_
  intro n hn hn'
  obtain ⟨r, hr, rfl⟩ := List.mem_map.1 hn
  obtain ⟨s, hs, hname⟩ := List.mem_map.1 hn'
  have hchosen := (of_decide_eq_true (List.mem_filter.1 hr).2).1
  have hother := (of_decide_eq_true (List.mem_filter.1 hs).2).1
  rw [hname] at hother
  exact hother hchosen

/-- **Choosing, opting in and passing over rules that are off** leave the rules in force. -/
theorem filter_withOptedIn (chosen : String → Bool) (hnames : (catalogue.map name).Nodup) :
    (withOptedIn config name (catalogue.filter fun r => chosen (name r)) catalogue).filter
        (fun r => config.isEnabled (name r)) =
      inForce config name chosen catalogue := by
  rw [withOptedIn_eq, newcomers_eq_filter hnames, List.filter_append, List.filter_filter,
    List.filter_filter]
  unfold inForce
  congr 1
  · apply List.filter_congr
    intro r _
    rw [Bool.eq_iff_iff, Bool.and_eq_true, Config.isEnabled_iff, decide_eq_true_eq]
    exact and_comm
  · apply List.filter_congr
    intro r hr
    have hchosen : name r ∈ (catalogue.filter fun r => chosen (name r)).map name ↔
        chosen (name r) = true := by
      constructor
      · intro hmem
        obtain ⟨s, hs, hname⟩ := List.mem_map.1 hmem
        rw [← hname]
        exact (List.mem_filter.1 hs).2
      · intro hown
        exact List.mem_map_of_mem (List.mem_filter.2 ⟨hr, hown⟩)
    rw [Bool.eq_iff_iff, Bool.and_eq_true, Config.isEnabled_iff, decide_eq_true_eq,
      decide_eq_true_eq, hchosen]
    constructor
    · rintro ⟨-, hon, hother⟩
      exact ⟨hother, hon⟩
    · rintro ⟨hother, hon⟩
      exact ⟨by simp [hon], hon, hother⟩

end OptingIn

namespace Preset

variable {p : Preset} {config : Config}

/-- The rules over Ruby files that run under a preset. -/
def running (p : Preset) (config : Config) : List Rule :=
  inForce config (·.name) p.includes (allRules config)

/-- The rules over texts that run under a preset. -/
def runningTexts (p : Preset) (config : Config) : List TextRule :=
  inForce config (·.name) (fun _ => p.includesText) (allTextRules config)

theorem filter_select_rules (p : Preset) (config : Config) :
    (p.select config).rules.filter (fun r => config.isEnabled r.name) = p.running config := by
  have hnames : ((allRules config).map (·.name)).Nodup := by
    rw [map_name_allRules]
    exact nodup_ruleNames
  exact filter_withOptedIn p.includes hnames

theorem filter_select_textRules (p : Preset) (config : Config) :
    (p.select config).textRules.filter (fun r => config.isEnabled r.name) =
      p.runningTexts config := by
  have hnames : ((allTextRules config).map (·.name)).Nodup := by
    unfold allTextRules
    exact List.nodup_singleton _
  have hown : (if p.includesText then allTextRules config else []) =
      (allTextRules config).filter fun _ => p.includesText := by
    cases p.includesText
    · rw [List.filter_false]
      rfl
    · rw [List.filter_true]
      rfl
  unfold select
  simp only
  rw [hown]
  exact filter_withOptedIn (fun _ => p.includesText) hnames

/-- No two of the rules that run share a name. -/
theorem nodup_running (p : Preset) (config : Config) :
    ((p.running config).map (·.name) ++ (p.runningTexts config).map (·.name)).Nodup := by
  have hnames : ((allRules config).map (·.name) ++ (allTextRules config).map (·.name)).Nodup := by
    have hcatalogue := Selection.nodup_names_catalogue config
    unfold Selection.names Selection.infos at hcatalogue
    rw [List.map_append, List.map_map, List.map_map] at hcatalogue
    exact hcatalogue
  obtain ⟨hrules, htexts, hdisjoint⟩ := List.nodup_append'.1 hnames
  refine List.nodup_append'.2 ⟨nodup_inForce hrules, nodup_inForce htexts, ?_⟩
  intro n hn hn'
  obtain ⟨r, hr, rfl⟩ := List.mem_map.1 hn
  obtain ⟨t, ht, hname⟩ := List.mem_map.1 hn'
  apply hdisjoint (List.mem_map_of_mem (mem_inForce.1 hr).1)
  rw [← hname]
  exact List.mem_map_of_mem (mem_inForce.1 ht).1

end Preset

namespace Analyzer

variable {a : Analyzer}

/-- What comes of the violations that a rule finds. -/
def outcome (a : Analyzer) (index : AllowIndex) (i : RuleInfo) (requiresReason : Bool)
    (found : List Violation) : List Violation :=
  settle index i.name requiresReason (a.config.overrideSeverity i.name found)

/-- **Runs the given rules on a file**, one after the other and whatever the configuration says of them:
those over Ruby files if the file is one, and then those over texts of its extension. -/
def runEach (a : Analyzer) (rules : List Rule) (texts : List TextRule) (grammar : Grammar)
    (path : Path) (content : String) : Except SyntaxError (List Violation) :=
  let ctx := FileContext.inProject path content a.root
  let index := AllowIndex.ofText content.toList
  let inTexts := (texts.filter fun r => r.extensions.contains (path.extension?.getD "")).flatMap
    fun r => a.outcome index r.toRuleInfo false (r.check ctx)
  if isRuby path then
    (ParsedFile.parse grammar (.ofString content)).map fun file =>
      (rules.flatMap fun r => a.outcome index r.toRuleInfo r.requiresReason (r.check ctx file)) ++
        inTexts
  else .ok inTexts

/-- Rules that are switched off report nothing, so the others are all that runs. -/
theorem flatMap_runRule (a : Analyzer) (ctx : FileContext) (index : AllowIndex) (file : ParsedFile)
    (rules : List Rule) :
    rules.flatMap (a.runRule ctx index file) =
      (rules.filter fun r => a.config.isEnabled r.name).flatMap fun r =>
        a.outcome index r.toRuleInfo r.requiresReason (r.check ctx file) := by
  induction rules with
  | nil => rfl
  | cons r rules ih =>
    rw [List.flatMap_cons, ih, runRule, List.filter_cons]
    split
    · rw [List.flatMap_cons]
      rfl
    · rfl

/-- **An analyzer runs the rules it has that are not switched off.** -/
theorem analyzeSource_eq_runEach (a : Analyzer) (grammar : Grammar) (path : Path)
    (content : String) :
    a.analyzeSource grammar path content =
      a.runEach (a.rules.filter fun r => a.config.isEnabled r.name)
        (a.textRules.filter fun r => a.config.isEnabled r.name) grammar path content := by
  have htexts : a.textRulesFor path =
      (a.textRules.filter fun r => a.config.isEnabled r.name).filter
        fun r => r.extensions.contains (path.extension?.getD "") := by
    rw [List.filter_filter]
    rfl
  have hself := a.analyzeSource_selecting ⟨a.rules, a.textRules⟩ grammar path content
  have hsame : a.selecting ⟨a.rules, a.textRules⟩ = a := rfl
  rw [hsame] at hself
  rw [hself, htexts]
  unfold runEach
  simp only [flatMap_runRule]
  rfl

/-- **Which rules run**, for every preset and every configuration. An analyzer that is built with the
rules of a preset for its configuration runs the rules of the preset that are not switched off, and then
those that are switched on; both in catalogue order, and rules over Ruby files before rules over texts.
These are all rules that are switched on and those of the preset that are not switched off, and since no
two share a name, each runs once. Opting in is as careful with any other lists: behind the chosen rules
it puts those that are switched on and have a name that is not yet there. So it drops nothing and repeats
no name. -/
theorem analyzeSource_inForce (p : Preset) (s : AnalyzerSetup) (surroundings : Surroundings)
    (a : Analyzer) (hselection : s.selection = p.select (s.config.getD {}))
    (hbuild : s.build surroundings = .ok a) :
    a.config = s.config.getD {} ∧
    (∀ grammar path content, a.analyzeSource grammar path content =
      a.runEach (p.running a.config) (p.runningTexts a.config) grammar path content) ∧
    (∀ r, r ∈ p.running a.config ↔ r ∈ allRules a.config ∧
      (a.config.enabled? r.name = some true ∨
        p.includes r.name = true ∧ a.config.enabled? r.name ≠ some false)) ∧
    (∀ r, r ∈ p.runningTexts a.config ↔ r ∈ allTextRules a.config ∧
      (a.config.enabled? r.name = some true ∨
        p.includesText = true ∧ a.config.enabled? r.name ≠ some false)) ∧
    ((p.running a.config).map (·.name) ++ (p.runningTexts a.config).map (·.name)).Nodup ∧
    ∀ (α : Type) (config : Config) (name : α → String) (selected available : List α),
      withOptedIn config name selected available =
        selected ++ newcomers config name selected available ∧
      (newcomers config name selected available).Sublist available ∧
      ((newcomers config name selected available).map name).Nodup ∧
      (∀ r ∈ newcomers config name selected available,
        config.enabled? (name r) = some true ∧ name r ∉ selected.map name) ∧
      ∀ r ∈ available, config.enabled? (name r) = some true →
        name r ∈ (withOptedIn config name selected available).map name := by
  obtain ⟨exclude, -, ha⟩ := AnalyzerSetup.build_eq_ok_iff.1 hbuild
  have hconfig : a.config = s.config.getD {} := by rw [ha]
  have hrules : a.rules = (p.select a.config).rules := by rw [hconfig, ← hselection, ha]
  have htexts : a.textRules = (p.select a.config).textRules := by
    rw [hconfig, ← hselection, ha]
  refine ⟨hconfig, ?_, fun r => mem_inForce, fun r => mem_inForce, p.nodup_running a.config, ?_⟩
  · intro grammar path content
    rw [analyzeSource_eq_runEach, hrules, htexts, p.filter_select_rules, p.filter_select_textRules]
  · intro α config name selected available
    refine ⟨withOptedIn_eq config name selected available, newcomers_sublist, nodup_newcomers,
      fun r => of_mem_newcomers, ?_⟩
    intro r hr hon
    rw [withOptedIn_eq]
    exact mem_names_newcomers hr hon

/-- The recommended preset without one of its own rules, with another one of them switched on again, and
with a rule that is not its own. -/
def switchedRules : AnalyzerSetup :=
  let config : Config :=
    { rules := [(MigrationLogging.ruleName, { enabled := some true }),
        ("no-dir-chdir", { enabled := some true }), ("no-reload", { enabled := some false })] }
  { selection := Preset.recommended.select config, config := some config }

/-- The rule that is switched on again runs once and in its place, and the one that is not the preset's own
comes last. -/
theorem analyzeSource_inForce_switchedRules :
    ∃ a, switchedRules.build { workingDir := ⟨"/"⟩ } = .ok a ∧
      (∀ grammar path content, a.analyzeSource grammar path content =
        a.runEach (Preset.recommended.running a.config) (Preset.recommended.runningTexts a.config)
          grammar path content) ∧
      (Preset.recommended.running a.config).map (·.name) =
        ["require-constant-prefix", "require-frozen-string-literal", "require-block-call",
          "no-dir-chdir", "no-resolve-field", "prefer-t-struct", "no-graph-camelize",
          "no-programmatic-enum-value", "data-migration-logging"] ∧
      (Preset.recommended.runningTexts a.config).map (·.name) = ["liquid-boolean-words"] := by
  obtain ⟨a, ha⟩ : ∃ a, switchedRules.build { workingDir := ⟨"/"⟩ } = .ok a := ⟨_, rfl⟩
  obtain ⟨hconfig, hrun, -⟩ :=
    analyzeSource_inForce .recommended switchedRules { workingDir := ⟨"/"⟩ } a rfl ha
  refine ⟨a, ha, hrun, ?_, ?_⟩
  · rw [hconfig]
    rfl
  · rw [hconfig]
    rfl

end Analyzer

end RubyLint
