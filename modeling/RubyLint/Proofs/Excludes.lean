import Mathlib.Tactic.Common
import RubyLint.Analyzer.Basic

/-!
# Which patterns leave files out

Patterns are given to an analyzer, or named by its configuration, or else the default ones are in
force. A configuration without settings for finding files has the default patterns in it, and one with
such settings has none unless it names some. So settings that name no pattern still change which are in
force, unless none are given.

* `Value.namedExcludes`: the patterns that a configuration names, as written.
* `Config.exclude_of_ofValue?`: the patterns of a configuration once it is read.
* `AnalyzerSetup.patterns_eq`: **the patterns in force**, for every configuration.
* `AnalyzerSetup.Steady`, `AnalyzerSetup.FallsBack`: what default patterns are meant to do;
  `defaultExcludes_iff`: **they do so exactly if no pattern is given.**
-/

namespace RubyLint

namespace Value

/-- The settings for finding files that a value states: by name, or by position in an array. -/
def settings? : Value → Option (List (String × Value))
  | array items => some (["root", "exclude", "respect_gitignore"].zip items)
  | v => v.entries?

/-- What a configuration says on finding files, if it says anything. -/
def analyzer? (v : Value) : Option Value :=
  v.table?.bind (·.lookup "analyzer")

/-- The patterns that settings for finding files name. -/
def excludesOf (analyzer : Value) : List String :=
  ((analyzer.settings?.bind (·.lookup "exclude")).bind strings?).getD []

/-- **The patterns that a configuration names**, as written. -/
def namedExcludes (v : Value) : List String :=
  (v.analyzer?.map excludesOf).getD []

variable {α : Type} {entries : List (String × Value)} {key : String} {read : Value → Option α}
  {found : Option α}

/-- An entry that was read is what the table holds under its key. -/
theorem eq_of_entry? (h : entry? entries key read = some found) :
    found = (entries.lookup key).bind read := by
  unfold entry? at h
  cases hlookup : entries.lookup key with
  | none =>
    rw [hlookup] at h
    exact (Option.some.inj h).symm
  | some v =>
    rw [hlookup] at h
    simp only at h
    obtain ⟨x, hread, rfl⟩ := Option.map_eq_some_iff.1 h
    exact hread.symm

end Value

theorem DiscoveryConfig.ofValue?_eq (v : Value) : ofValue? v = v.settings?.bind ofTable? := by
  cases v <;> rfl

/-- Settings have the patterns that they name. -/
theorem DiscoveryConfig.exclude_of_ofValue? {v : Value} {c : DiscoveryConfig}
    (h : ofValue? v = some c) : c.exclude = v.excludesOf := by
  rw [ofValue?_eq] at h
  obtain ⟨settings, hsettings, htable⟩ := Option.bind_eq_some_iff.1 h
  unfold ofTable? at htable
  simp only [bind, Option.bind_eq_some_iff, pure] at htable
  obtain ⟨root, -, exclude, hexclude, respect, -, hc⟩ := htable
  rw [← Option.some.inj hc, Value.eq_of_entry? hexclude]
  unfold Value.excludesOf
  rw [hsettings]
  rfl

/-- **The patterns of a configuration** once it is read: those of its settings for finding files, or the
default ones if it has no such settings. -/
theorem Config.exclude_of_ofValue? {v : Value} {c : Config} (h : ofValue? v = some c) :
    c.discovery.exclude = (v.analyzer?.map Value.excludesOf).getD defaultExcludes := by
  unfold ofValue? at h
  simp only [bind, Option.bind_eq_some_iff, pure] at h
  obtain ⟨entries, htable, preset, -, discovery, hdiscovery, rules, -, hc⟩ := h
  have hanalyzer : v.analyzer? = entries.lookup "analyzer" := by
    unfold Value.analyzer?
    rw [htable]
    rfl
  rw [← Option.some.inj hc, hanalyzer]
  cases hlookup : entries.lookup "analyzer" with
  | none =>
    unfold Value.entry? at hdiscovery
    rw [hlookup] at hdiscovery
    cases hdiscovery
    rfl
  | some analyzer =>
    unfold Value.entry? at hdiscovery
    rw [hlookup] at hdiscovery
    obtain ⟨settings, hsettings, rfl⟩ := Option.map_eq_some_iff.1 hdiscovery
    exact DiscoveryConfig.exclude_of_ofValue? hsettings

/-- Patterns, or the default ones if there are none. -/
def orDefaults (patterns : List String) : List String :=
  if patterns = [] then defaultExcludes else patterns

theorem orDefaults_of_ne {patterns : List String} (h : patterns ≠ []) :
    orDefaults patterns = patterns := if_neg h

namespace AnalyzerSetup

variable {s : AnalyzerSetup} {v : Value} {c : Config}

theorem patterns_eq_orDefaults (s : AnalyzerSetup) :
    s.patterns = orDefaults (s.exclude ++ (s.config.map (·.discovery.exclude)).getD []) := by
  unfold patterns orDefaults
  simp only [List.isEmpty_iff]

/-- **The patterns in force** for a configuration, as it was written. -/
theorem patterns_eq (hc : Config.ofValue? v = some c) (hs : s.config = some c) :
    s.patterns = if v.analyzer? = none then s.exclude ++ defaultExcludes
      else orDefaults (s.exclude ++ v.namedExcludes) := by
  rw [patterns_eq_orDefaults, hs]
  simp only [Option.map_some, Option.getD_some]
  rw [Config.exclude_of_ofValue? hc]
  unfold Value.namedExcludes
  cases v.analyzer? with
  | none =>
    rw [if_pos rfl]
    apply orDefaults_of_ne
    simp [defaultExcludes]
  | some analyzer => rfl

/-- Patterns that are named are in force alone, unless a configuration without settings for finding
files brings the default ones along. -/
theorem patterns_eq_orDefaults_iff (hc : Config.ofValue? v = some c) (hs : s.config = some c) :
    s.patterns = orDefaults (s.exclude ++ v.namedExcludes) ↔
      s.exclude = [] ∨ v.analyzer? ≠ none := by
  rw [patterns_eq hc hs]
  by_cases hanalyzer : v.analyzer? = none
  · have hnamed : v.namedExcludes = [] := by
      unfold Value.namedExcludes
      rw [hanalyzer]
      rfl
    rw [if_pos hanalyzer, hnamed, List.append_nil]
    by_cases hgiven : s.exclude = []
    · simp [hgiven, orDefaults]
    · rw [orDefaults_of_ne hgiven]
      simp [hgiven, hanalyzer, defaultExcludes]
  · rw [if_neg hanalyzer]
    simp [hanalyzer]

/-- **Settings that name no pattern do not matter**: whatever patterns are given, a configuration without
settings for finding files has the same ones in force with such settings added. -/
def Steady (s : AnalyzerSetup) : Prop :=
  ∀ (entries : List (String × Value)) (analyzer : Value) (c c' : Config),
    entries.lookup "analyzer" = none → analyzer.settings?.bind (·.lookup "exclude") = none →
    Config.ofValue? (.table entries) = some c →
    Config.ofValue? (.table (("analyzer", analyzer) :: entries)) = some c' →
    { s with config := some c }.patterns = { s with config := some c' }.patterns

/-- **The default patterns are a last resort**: they are in force exactly if none are given or named. -/
def FallsBack (s : AnalyzerSetup) : Prop :=
  ∀ (v : Value) (c : Config), Config.ofValue? v = some c →
    { s with config := some c }.patterns = orDefaults (s.exclude ++ v.namedExcludes)

theorem fallsBack_iff : s.FallsBack ↔ s.exclude = [] := by
  constructor
  · intro h
    have hempty : Config.ofValue? (.table []) = some {} := rfl
    have hgiven := (patterns_eq_orDefaults_iff hempty rfl).1 (h (.table []) {} hempty)
    exact hgiven.resolve_right fun hsome => hsome rfl
  · intro hgiven v c hc
    exact (patterns_eq_orDefaults_iff hc rfl).2 (Or.inl hgiven)

theorem steady_iff : s.Steady ↔ s.exclude = [] := by
  constructor
  · intro h
    -- an empty table of settings is enough to switch the default patterns off
    have hempty : Config.ofValue? (.table []) = some {} := rfl
    have htable : Config.ofValue? (.table [("analyzer", .table [])]) =
        some { discovery := {} } := rfl
    have hsame := h [] (.table []) {} { discovery := {} } rfl rfl hempty htable
    have halone := (patterns_eq_orDefaults_iff (s := { s with config := some { discovery := {} } })
      htable rfl).2 (Or.inr (Option.some_ne_none _))
    rw [halone] at hsame
    have hgiven := (patterns_eq_orDefaults_iff hempty rfl).1 hsame
    exact hgiven.resolve_right fun hsome => hsome rfl
  · intro hgiven entries analyzer c c' habsent hunnamed hc hc'
    have hentries : (Value.table entries).namedExcludes = [] := by
      unfold Value.namedExcludes Value.analyzer? Value.table?
      rw [Option.bind_some, habsent]
      rfl
    have hsettings : (Value.table (("analyzer", analyzer) :: entries)).namedExcludes = [] := by
      change analyzer.excludesOf = []
      unfold Value.excludesOf
      rw [hunnamed]
      rfl
    have hfalls := fallsBack_iff.2 hgiven
    rw [hfalls _ c hc, hfalls _ c' hc', hentries, hsettings]

/-- **The default patterns are a last resort exactly if no pattern is given**, and only then do settings
that name none not matter. A configuration that says nothing on finding files counts as one that names
the default patterns, so these come on top of the given ones. One that says something, but names no
pattern, leaves the given ones alone. -/
theorem defaultExcludes_iff (s : AnalyzerSetup) :
    (s.Steady ↔ s.exclude = []) ∧ (s.FallsBack ↔ s.exclude = []) ∧
    (∀ (v : Value) (c : Config), Config.ofValue? v = some c →
      ({ s with config := some c }.patterns =
        if v.analyzer? = none then s.exclude ++ defaultExcludes
        else orDefaults (s.exclude ++ v.namedExcludes)) ∧
      ({ s with config := some c }.patterns = orDefaults (s.exclude ++ v.namedExcludes) ↔
        s.exclude = [] ∨ v.analyzer? ≠ none)) ∧
    { s with config := none }.patterns = orDefaults s.exclude ∧
    ∀ surroundings a, s.build surroundings = .ok a →
      s.patterns.mapM Glob.compile = .ok a.exclude := by
  refine ⟨steady_iff, fallsBack_iff, ?_, ?_, ?_⟩
  · intro v c hc
    exact ⟨patterns_eq hc rfl, patterns_eq_orDefaults_iff hc rfl⟩
  · rw [patterns_eq_orDefaults]
    simp
  · intro surroundings a hbuild
    obtain ⟨exclude, hexclude, rfl⟩ := build_eq_ok_iff.1 hbuild
    exact hexclude

/-- A pattern is given and a configuration says nothing on finding files: the default patterns are in
force as well, until an empty table of settings is added. -/
theorem givenPattern_not_steady :
    ¬ ({ selection := ⟨[], []⟩, exclude := ["generated/**"] } : AnalyzerSetup).Steady ∧
      ¬ ({ selection := ⟨[], []⟩, exclude := ["generated/**"] } : AnalyzerSetup).FallsBack := by
  constructor
  · intro h
    have hsame := h [] (.table []) {} { discovery := {} } rfl rfl rfl rfl
    exact absurd hsame (by decide)
  · intro h
    have hnamed := h (.table []) {} rfl
    exact absurd hnamed (by decide)

end AnalyzerSetup

end RubyLint
