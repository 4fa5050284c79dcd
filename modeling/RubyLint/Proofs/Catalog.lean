import Mathlib.Data.List.Nodup
import RubyLint.Analyzer.Basic

/-!
# Who reports what

Every rule of the catalogue puts its own name on its violations, and no two rules share a name. So
the violations of a file can be sorted by rule again after the analyzer has put them together.

* `allRules_signs`, `allTextRules_signs`: rules sign their violations.
* `eq_of_name_eq`: a rule of the catalogue is known by its name.
* `mem_settle_override`: what the analyzer makes of the violations of a rule.
* `Analyzer.analyzeSource_ruby`: the violations of a Ruby file, rule by rule.
* `Analyzer.mem_runRule_of_rule`: **a violation in the name of a rule is one of that rule.**
-/

namespace RubyLint

variable {a : Analyzer} {config : Config} {ctx : FileContext} {index : AllowIndex}
  {file : ParsedFile} {v : Violation}

/-- The violations of the rule bear its name. -/
def Rule.Signs (r : Rule) : Prop :=
  ∀ ctx file, ∀ v ∈ r.check ctx file, v.rule = r.name

/-- The violations of the rule bear its name. -/
def TextRule.Signs (r : TextRule) : Prop :=
  ∀ ctx, ∀ v ∈ r.check ctx, v.rule = r.name

theorem RuleInfo.rule_of_mem_map {α : Type} {i : RuleInfo} {f : α → Violation} {xs : List α}
    (hf : ∀ x, (f x).rule = i.name) (hv : v ∈ xs.map f) : v.rule = i.name := by
  obtain ⟨x, -, rfl⟩ := List.mem_map.1 hv
  exact hf x

theorem ConstantPrefix.rule_signs (r : ConstantPrefix) : r.rule.Signs :=
  fun _ _ _ hv => RuleInfo.rule_of_mem_map (i := r.info) (fun _ => rfl) hv

theorem FrozenLiteral.rule_signs : FrozenLiteral.rule.Signs := by
  intro ctx file v hv
  change v ∈ FrozenLiteral.check ctx file.root at hv
  unfold FrozenLiteral.check at hv
  split at hv
  · cases hv
  · rw [List.mem_singleton] at hv; subst hv; rfl

theorem Rule.ofCalls_signs (i : RuleInfo) (pattern : CallPattern)
    (message : Source → Call → String) : (Rule.ofCalls i pattern message).Signs :=
  fun _ _ _ hv => RuleInfo.rule_of_mem_map (i := i) (fun _ => rfl) hv

theorem PreferStruct.rule_signs : PreferStruct.rule.Signs :=
  fun _ _ _ hv => RuleInfo.rule_of_mem_map (i := PreferStruct.info) (fun _ => rfl) hv

theorem Camelize.rule_signs : Camelize.rule.Signs :=
  fun _ _ _ hv => RuleInfo.rule_of_mem_map (i := Camelize.info) (fun _ => rfl) hv

theorem EnumValue.rule_signs : EnumValue.rule.Signs :=
  fun _ _ _ hv => RuleInfo.rule_of_mem_map (i := EnumValue.info) (fun _ => rfl) hv

theorem LineLimit.rule_signs (r : LineLimit) : r.rule.Signs := by
  intro ctx file v hv
  change v ∈ r.check ctx at hv
  unfold LineLimit.check at hv
  split at hv
  · cases hv
  · rw [List.mem_singleton] at hv; subst hv; rfl

theorem MigrationLogging.rule_signs (r : MigrationLogging) : r.rule.Signs := by
  intro ctx file v hv
  change v ∈ r.check ctx file.root at hv
  unfold MigrationLogging.check at hv
  split at hv
  · exact RuleInfo.rule_of_mem_map (i := MigrationLogging.info) (fun _ => rfl) hv
  · cases hv

/-- **Every rule over Ruby files signs its violations.** -/
theorem allRules_signs (config : Config) : ∀ r ∈ allRules config, r.Signs := by
  unfold allRules
  simp only [List.forall_mem_cons, List.not_mem_nil, IsEmpty.forall_iff, implies_true, and_true]
  exact ⟨ConstantPrefix.rule_signs _, FrozenLiteral.rule_signs, Rule.ofCalls_signs _ _ _,
    Rule.ofCalls_signs _ _ _, Rule.ofCalls_signs _ _ _, Rule.ofCalls_signs _ _ _,
    PreferStruct.rule_signs, Camelize.rule_signs, EnumValue.rule_signs, LineLimit.rule_signs _,
    MigrationLogging.rule_signs _⟩

/-- **Every rule over other files signs its violations.** -/
theorem allTextRules_signs (config : Config) : ∀ r ∈ allTextRules config, r.Signs := by
  unfold allTextRules
  intro r hr
  rw [List.mem_singleton] at hr; subst hr
  exact fun _ _ hv => RuleInfo.rule_of_mem_map (i := LiquidWords.info) (fun _ => rfl) hv

/-- The names of the rules over Ruby files, which no configuration changes. -/
def ruleNames : List String :=
  ["require-constant-prefix", "require-frozen-string-literal", "require-block-call",
    "no-dir-chdir", "no-reload", "no-resolve-field", "prefer-t-struct", "no-graph-camelize",
    "no-programmatic-enum-value", "file-line-limit", "data-migration-logging"]

theorem map_name_allRules (config : Config) : (allRules config).map (·.name) = ruleNames := rfl

theorem nodup_ruleNames : ruleNames.Nodup := by decide

/-- **A rule of the catalogue is known by its name.** -/
theorem eq_of_name_eq {r r' : Rule} (hr : r ∈ allRules config) (hr' : r' ∈ allRules config)
    (h : r.name = r'.name) : r = r' := by
  have hnodup : ((allRules config).map (·.name)).Nodup := by
    rw [map_name_allRules]; exact nodup_ruleNames
  exact List.inj_on_of_nodup_map hnodup hr hr' h

theorem mem_withOptedIn {α : Type} {name : α → String} {x : α} {selected available : List α}
    (h : x ∈ withOptedIn config name selected available) : x ∈ selected ∨ x ∈ available := by
  induction available generalizing selected with
  | nil => exact Or.inl h
  | cons y available ih =>
    unfold withOptedIn at h
    split at h
    · rcases ih h with h | h
      · rcases List.mem_append.1 h with h | h
        · exact Or.inl h
        · exact Or.inr (List.mem_cons.2 (Or.inl (List.mem_singleton.1 h)))
      · exact Or.inr (List.mem_cons_of_mem y h)
    · exact (ih h).imp_right (List.mem_cons_of_mem y)

theorem Preset.mem_allRules {p : Preset} {r : Rule} (h : r ∈ (p.select config).rules) :
    r ∈ allRules config :=
  (mem_withOptedIn h).elim List.mem_of_mem_filter id

theorem Preset.mem_allTextRules {p : Preset} {r : TextRule}
    (h : r ∈ (p.select config).textRules) : r ∈ allTextRules config := by
  rcases mem_withOptedIn h with h | h
  · split at h
    · exact h
    · cases h
  · exact h

theorem mem_settle {rule : String} {needed : Bool} {vs : List Violation}
    (h : v ∈ settle index rule needed vs) : v ∈ vs ∨ ∃ w ∈ vs, v = missingReason rule w := by
  unfold settle at h
  split at h
  · exact Or.inl h
  · obtain ⟨w, hw, h⟩ := List.mem_filterMap.1 h
    unfold settleOne? at h
    split at h
    · cases h; exact Or.inl hw
    · split at h
      · cases h; exact Or.inr ⟨w, hw, rfl⟩
      · cases h

theorem mem_overrideSeverity {rule : String} {vs : List Violation}
    (h : v ∈ config.overrideSeverity rule vs) : ∃ w ∈ vs, v = { w with severity := v.severity } := by
  unfold Config.overrideSeverity at h
  split at h
  · obtain ⟨w, hw, rfl⟩ := List.mem_map.1 h; exact ⟨w, hw, rfl⟩
  · exact ⟨v, h, rfl⟩

/-- What the analyzer makes of a violation of a rule: it changes the severity at most, or puts a
warning in its place. -/
theorem mem_settle_override {rule : String} {needed : Bool} {vs : List Violation}
    (h : v ∈ settle index rule needed (config.overrideSeverity rule vs)) :
    ∃ w ∈ vs, v = { w with severity := v.severity } ∨ v = missingReason rule w := by
  rcases mem_settle h with h | ⟨w, hw, rfl⟩
  · obtain ⟨w, hw, h⟩ := mem_overrideSeverity h
    exact ⟨w, hw, Or.inl h⟩
  · obtain ⟨u, hu, h⟩ := mem_overrideSeverity hw
    exact ⟨u, hu, Or.inr (by rw [h]; rfl)⟩

namespace Analyzer

variable {grammar : Grammar} {path : Path} {content : String} {violations : List Violation}
  {r : Rule} {e : Edit}

theorem mem_runRule (h : v ∈ a.runRule ctx index file r) :
    ∃ w ∈ r.check ctx file, v = { w with severity := v.severity } ∨ v = missingReason r.name w := by
  unfold runRule at h
  split at h
  · exact mem_settle_override h
  · cases h

theorem rule_of_mem_runRule (hr : r.Signs) (h : v ∈ a.runRule ctx index file r) :
    v.rule = r.name := by
  obtain ⟨w, hw, h | h⟩ := mem_runRule h
  · rw [h]; exact hr ctx file w hw
  · rw [h]; rfl

theorem rule_of_mem_runTextRule {r : TextRule} (hr : r.Signs) (h : v ∈ a.runTextRule ctx index r) :
    v.rule = r.name := by
  obtain ⟨w, hw, h | h⟩ := mem_settle_override h
  · rw [h]; exact hr ctx w hw
  · rw [h]; rfl

/-- The warning that a reason is missing carries no edit, so all edits are a rule's own. -/
theorem edit_of_mem_runRule (h : v ∈ a.runRule ctx index file r) (he : v.edit? = some e) :
    ∃ w ∈ r.check ctx file, w.edit? = some e := by
  obtain ⟨w, hw, h | h⟩ := mem_runRule h
  · rw [h] at he; exact ⟨w, hw, he⟩
  · rw [h] at he; cases he

/-- The violations of a Ruby file: rule by rule, and then those of its text. -/
theorem analyzeSource_ruby (hruby : isRuby path = true)
    (h : a.analyzeSource grammar path content = .ok violations) :
    ∃ file, violations =
      a.rules.flatMap (a.runRule (.inProject path content a.root)
        (.ofText content.toList) file) ++
      (a.textRulesFor path).flatMap (a.runTextRule (.inProject path content a.root)
        (.ofText content.toList)) := by
  unfold analyzeSource at h
  simp only [hruby, if_true] at h
  split at h
  · cases h
  · rename_i file _
    cases h
    exact ⟨file, rfl⟩

/-- **A violation in the name of a rule of the catalogue is one of that rule.** -/
theorem mem_runRule_of_rule (hrules : ∀ r ∈ a.rules, r ∈ allRules config)
    (htexts : ∀ r ∈ a.textRules, r ∈ allTextRules config) (hr : r ∈ allRules config)
    (hv : v ∈ a.rules.flatMap (a.runRule ctx index file) ++
      (a.textRulesFor path).flatMap (a.runTextRule ctx index))
    (hrule : v.rule = r.name) : v ∈ a.runRule ctx index file r := by
  rcases List.mem_append.1 hv with hv | hv
  · obtain ⟨r', hr', hv⟩ := List.mem_flatMap.1 hv
    have hname := rule_of_mem_runRule (allRules_signs config r' (hrules r' hr')) hv
    rw [hrule] at hname
    rw [eq_of_name_eq hr (hrules r' hr') hname]; exact hv
  · -- the rules over other files have other names
    obtain ⟨t, ht, hv⟩ := List.mem_flatMap.1 hv
    have htext := htexts t (List.mem_of_mem_filter ht)
    have hname := rule_of_mem_runTextRule (allTextRules_signs config t htext) hv
    have hmem : r.name ∈ ruleNames := by
      rw [← map_name_allRules config]; exact List.mem_map_of_mem hr
    rw [List.mem_singleton.1 htext] at hname
    rw [← hrule, hname] at hmem
    exact absurd hmem (by decide)

end Analyzer

end RubyLint
