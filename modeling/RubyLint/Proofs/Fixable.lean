import Mathlib
import RubyLint.Proofs.Acceptance
import RubyLint.Proofs.Catalog
import RubyLint.Proofs.FixPasses
import RubyLint.Proofs.Marked
import RubyLint.Proofs.Splice

/-!
# Every fix of a built-in rule can be placed

An edit is refused because it does not fit the text, or because it overlaps one that was accepted. The
edits of built-in rules fit, so only overlaps are left, and a pass over a file with something to fix
gets something done.

* `Violation.Placed`: a violation and its edit cover marked ranges that fit the text.
* `Edit.overlaps_of_refused`: **an edit that fits is refused only for an accepted one that it
  overlaps.**
* `Violation.Progress`, `Violation.progress_of_fits`: what follows for a list of violations.
* `Analyzer.placed_of_mem`: an analyzer leaves violations where the rules put them.
* `builtIn_fixes_progress`: **built-in rules report places in the text, their fixes stand back for each
  other only, and a run that settles leaves nothing to fix.**
-/

namespace RubyLint

/-- A location is exactly a range, which fits the text: its length is the whole way from the start to
the end, and not cut off at 0. -/
structure Location.Covers (chars : List Char) (l : Location) (span : Span) : Prop where
  offset_eq : l.offset = span.start
  length_eq : l.length = span.stop - span.start
  fits : span.Fits chars

/-- A violation covers a marked range, and its edit, if it has one, the range marked for it. -/
def Violation.Placed (source : Source) (nodes : List Tree) (v : Violation) : Prop :=
  ∃ span fix, Marked source nodes span fix ∧ v.location.Covers source.chars span ∧
    ∀ e, v.edit? = some e → ∃ s, fix = some s ∧ e.location.Covers source.chars s

theorem Location.Covers.edit_fits {chars : List Char} {e : Edit} {span : Span}
    (h : e.location.Covers chars span) : e.fits chars = true := by
  have hle := h.fits.start_le_stop
  have hstart : e.start = span.start := h.offset_eq
  have hstop : e.stop = span.stop := by
    have := h.length_eq
    rw [Edit.stop_eq, hstart]
    omega
  rw [Edit.fits_iff, hstart, hstop]
  exact ⟨h.fits.stop_le, h.fits.start_boundary, h.fits.stop_boundary⟩

theorem Violation.Marks.placed {ctx : FileContext} {nodes : List Tree} {v : Violation}
    (h : v.Marks ctx nodes) (hnodes : ∀ n ∈ nodes, n.span.Fits ctx.source.chars) :
    v.Placed ctx.source nodes := by
  obtain ⟨span, fix, hmarked, hlocation, hedit⟩ := h
  refine ⟨span, fix, hmarked, ?_, ?_⟩
  · rw [hlocation]
    exact ⟨rfl, rfl, hmarked.fits_span hnodes⟩
  · intro e he
    rw [he] at hedit
    cases fix with
    | none => cases hedit
    | some s =>
      have hs : e.location = ctx.locate s := Option.some.inj hedit
      rw [hs]
      exact ⟨s, rfl, rfl, rfl, hmarked.fits_fix hnodes⟩

namespace Edit

variable {content : String} {chars : List Char} {cursor : Nat} {e : Edit} {edits : List Edit}

/-- The refused edits of a batch. -/
def refused (content : String) (edits : List Edit) : List Edit :=
  (select content.toList 0 (ordered edits)).2

/-- The ranges of two edits meet in more than an end point. -/
def Overlaps (a b : Edit) : Prop :=
  a.start < b.stop ∧ b.start < a.stop

/-- An edit that starts before the end of one that it does not precede overlaps it. -/
theorem overlaps_of_precedes {a : Edit} (h : precedes a e = true) (hlt : e.start < a.stop) :
    a.Overlaps e := by
  refine ⟨?_, hlt⟩
  rw [precedes_iff] at h
  have ha := stop_eq a
  have he := stop_eq e
  omega

theorem mem_of_mem_select (he : e ∈ (select chars cursor edits).2) : e ∈ edits := by
  induction edits generalizing cursor with
  | nil => cases he
  | cons x xs ih =>
    unfold select at he
    split at he
    · exact List.mem_cons_of_mem x (ih he)
    · rcases List.mem_cons.1 he with rfl | he
      · exact List.mem_cons_self
      · exact List.mem_cons_of_mem x (ih he)

/-- **Why an edit that fits is refused**, among edits in order: it starts before the cursor, or
overlaps one that is accepted. -/
theorem overlaps_of_mem_select (hsorted : edits.Pairwise fun a b => precedes a b = true)
    (hfits : ∀ x ∈ edits, x.fits chars = true) (he : e ∈ (select chars cursor edits).2) :
    e.start < cursor ∨ ∃ a ∈ (select chars cursor edits).1, a.Overlaps e := by
  induction edits generalizing cursor with
  | nil => cases he
  | cons x xs ih =>
    obtain ⟨hfirst, hsorted⟩ := List.pairwise_cons.1 hsorted
    have hrest : ∀ y ∈ xs, y.fits chars = true := fun y hy => hfits y (List.mem_cons_of_mem x hy)
    have hxfits := hfits x List.mem_cons_self
    rcases Nat.lt_or_ge x.start cursor with hlt | hge
    · have hselect : select chars cursor (x :: xs) =
          ((select chars cursor xs).1, x :: (select chars cursor xs).2) := by
        simp [select, Nat.not_le.2 hlt]
      rw [hselect] at he ⊢
      rcases List.mem_cons.1 he with rfl | he
      · exact Or.inl hlt
      · exact ih hsorted hrest he
    · have hselect : select chars cursor (x :: xs) =
          (x :: (select chars x.stop xs).1, (select chars x.stop xs).2) :=
        select_cons_of_fits hxfits hge xs
      rw [hselect] at he ⊢
      right
      -- what starts before the end of the accepted edit comes after it in order
      rcases ih hsorted hrest he with hlt | ⟨a, ha, hoverlaps⟩
      · have hprecedes := hfirst e (mem_of_mem_select he)
        exact ⟨x, List.mem_cons_self, overlaps_of_precedes hprecedes hlt⟩
      · exact ⟨a, List.mem_cons_of_mem x ha, hoverlaps⟩

/-- **An edit that fits is refused only for an accepted one that it overlaps.** -/
theorem overlaps_of_refused (hfits : ∀ x ∈ edits, x.fits content.toList = true)
    (he : e ∈ refused content edits) : ∃ a ∈ accepted content edits, a.Overlaps e := by
  have hall : ∀ x ∈ ordered edits, x.fits content.toList = true := fun x hx =>
    hfits x ((List.mergeSort_perm edits precedes).mem_iff.1 hx)
  rcases overlaps_of_mem_select (ordered_sorted edits) hall he with h | h
  · exact absurd h (Nat.not_lt_zero _)
  · exact h

/-- Something of what fits is accepted. -/
theorem applied_pos (hfits : ∀ x ∈ edits, x.fits content.toList = true) (hne : edits ≠ []) :
    0 < (applyAll content edits).applied := by
  by_contra hzero
  have hnone : accepted content edits = [] := List.length_eq_zero_iff.1 (Nat.eq_zero_of_not_pos hzero)
  have hall := applied_add_conflicts content edits
  have hpos := List.length_pos_iff.2 hne
  have hlength : (refused content edits).length = (applyAll content edits).conflicts := rfl
  obtain ⟨e, he⟩ := List.exists_mem_of_length_pos (l := refused content edits) (by omega)
  obtain ⟨a, ha, -⟩ := overlaps_of_refused hfits he
  rw [hnone] at ha
  cases ha

end Edit

/-- **A pass over violations makes progress**: what it refuses overlaps something it accepts, and if
there is anything to fix it fixes something. -/
structure Violation.Progress (content : String) (vs : List Violation) : Prop where
  overlaps : ∀ e ∈ Edit.refused content (vs.filterMap (·.edit?)),
    ∃ a ∈ Edit.accepted content (vs.filterMap (·.edit?)), a.Overlaps e
  applies : (∃ v ∈ vs, v.isFixable = true) → 0 < (Violation.applyFixes content vs).applied

theorem Violation.progress_of_fits {content : String} {vs : List Violation}
    (h : ∀ v ∈ vs, ∀ e, v.edit? = some e → e.fits content.toList = true) :
    Violation.Progress content vs := by
  have hfits : ∀ e ∈ vs.filterMap (·.edit?), e.fits content.toList = true := by
    intro e he
    obtain ⟨v, hv, he⟩ := List.mem_filterMap.1 he
    exact h v hv e he
  refine ⟨fun e he => Edit.overlaps_of_refused hfits he, ?_⟩
  rintro ⟨v, hv, hfix⟩
  obtain ⟨e, he⟩ := Option.isSome_iff_exists.1 hfix
  exact Edit.applied_pos hfits (List.ne_nil_of_mem (List.mem_filterMap.2 ⟨v, hv, he⟩))

theorem Violation.Placed.edit_fits {source : Source} {nodes : List Tree} {v : Violation} {e : Edit}
    (h : v.Placed source nodes) (he : v.edit? = some e) : e.fits source.chars = true := by
  obtain ⟨span, fix, -, -, hedit⟩ := h
  obtain ⟨s, -, hcovers⟩ := hedit e he
  exact hcovers.edit_fits

/-- What an analyzer makes of a violation stays in its place. -/
theorem Violation.Placed.settled {source : Source} {nodes : List Tree} {v w : Violation}
    {rule : String} (hw : w.Placed source nodes)
    (h : v = { w with severity := v.severity } ∨ v = missingReason rule w) :
    v.Placed source nodes := by
  obtain ⟨span, fix, hmarked, hlocation, hedit⟩ := hw
  rcases h with h | h
  · rw [h]; exact ⟨span, fix, hmarked, hlocation, hedit⟩
  · rw [h]; exact ⟨span, fix, hmarked, hlocation, fun e he => by cases he⟩

/-- A grammar makes well placed trees. -/
def Grammar.PlacesWell (g : Grammar) : Prop :=
  ∀ text root, g text = some root → root.WellPlaced text.toList

theorem ParsedFile.exists_root {g : Grammar} {source : Source} {file : ParsedFile}
    (h : ParsedFile.parse g source = .ok file) :
    ∃ root, g source.content = some root ∧ file = ⟨root, .ofTree source root⟩ := by
  unfold parse at h
  split at h
  · cases h
  · rename_i root hroot
    split at h
    · cases h
    · cases h; exact ⟨root, hroot, rfl⟩

namespace Analyzer

variable {a : Analyzer} {g : Grammar} {path : Path} {content : String} {vs : List Violation}
  {v : Violation}

/-- An analyzer has built-in rules only. -/
structure BuiltIn (a : Analyzer) : Prop where
  rules : ∀ r ∈ a.rules, r.BuiltIn
  textRules : ∀ r ∈ a.textRules, r.BuiltIn

/-- A violation in a file is one of a rule over texts or of a rule over the tree, as settled by the
analyzer. -/
theorem exists_check_of_mem (h : a.analyzeSource g path content = .ok vs) (hv : v ∈ vs) :
    (∃ r ∈ a.textRules, ∃ w ∈ r.check (.inProject path content a.root),
      v = { w with severity := v.severity } ∨ v = missingReason r.name w) ∨
    ∃ root, g content = some root ∧ ∃ r ∈ a.rules,
      ∃ w ∈ r.check (.inProject path content a.root) ⟨root, .ofTree (.ofString content) root⟩,
        v = { w with severity := v.severity } ∨ v = missingReason r.name w := by
  have htext (hv : v ∈ (a.textRulesFor path).flatMap
      (a.runTextRule (.inProject path content a.root) (.ofText content.toList))) :
      ∃ r ∈ a.textRules, ∃ w ∈ r.check (.inProject path content a.root),
        v = { w with severity := v.severity } ∨ v = missingReason r.name w := by
    obtain ⟨r, hr, hv⟩ := List.mem_flatMap.1 hv
    exact ⟨r, List.mem_of_mem_filter hr, mem_settle_override hv⟩
  unfold analyzeSource at h
  simp only at h
  split at h
  · split at h
    · cases h
    · rename_i file hfile
      cases h
      rcases List.mem_append.1 hv with hv | hv
      · obtain ⟨root, hroot, rfl⟩ := ParsedFile.exists_root hfile
        obtain ⟨r, hr, hv⟩ := List.mem_flatMap.1 hv
        exact Or.inr ⟨root, hroot, r, hr, mem_runRule hv⟩
      · exact Or.inl (htext hv)
  · cases h
    exact Or.inl (htext hv)

/-- **An analyzer of built-in rules reports places in the text.** -/
theorem placed_of_mem (ha : a.BuiltIn) (hg : g.PlacesWell)
    (h : a.analyzeSource g path content = .ok vs) (hv : v ∈ vs) :
    ∃ nodes, v.Placed (.ofString content) nodes := by
  rcases exists_check_of_mem h hv with ⟨r, hr, w, hw, hsettled⟩ | ⟨root, hroot, r, hr, w, hw, hsettled⟩
  · have hmarks : w.Marks (.inProject path content a.root) [] := (ha.textRules r hr).marks hw
    exact ⟨[], (hmarks.placed fun n hn => by cases hn).settled hsettled⟩
  · have hplaced := hg content root hroot
    have hmarks := (ha.rules r hr).marks hplaced hw
    exact ⟨root.nodes, (hmarks.placed hplaced.fits).settled hsettled⟩

/-- A pass of an analyzer of built-in rules makes progress. -/
theorem progress (ha : a.BuiltIn) (hg : g.PlacesWell)
    (h : a.analyzeSource g path content = .ok vs) : Violation.Progress content vs := by
  apply Violation.progress_of_fits
  intro v hv e he
  obtain ⟨nodes, hplaced⟩ := placed_of_mem ha hg h hv
  exact hplaced.edit_fits he

/-- **A run of built-in rules that settles leaves nothing to fix.** -/
theorem not_isFixable_of_settled {fixed : Fixed} (ha : a.BuiltIn) (hg : g.PlacesWell)
    (h : a.fixSource g path content = .ok fixed) (hstop : fixed.stop = .settled) :
    ∃ vs, a.analyzeSource g path fixed.content = .ok vs ∧ ∀ v ∈ vs, v.isFixable = false := by
  cases ending_of_fixSource h with
  | capped | discarded | unreadable => cases hstop
  | settled m lt edits reads idle =>
    change (a.revise g path (a.textAt g path content m)).applied = 0 at idle
    change ∃ vs, a.analyzeSource g path (a.textAt g path content m) = .ok vs ∧ _
    generalize a.textAt g path content m = text at reads idle
    unfold Analyzer.reads at reads
    unfold revise at idle
    split at reads
    · rename_i vs hvs
      rw [hvs] at idle
      refine ⟨vs, hvs, fun v hv => Bool.eq_false_iff.2 fun hfix => ?_⟩
      have happlied := (progress ha hg hvs).applies ⟨v, hv, hfix⟩
      exact absurd idle (Nat.ne_of_gt happlied)
    · cases reads

end Analyzer

/-- A violation is reported by a built-in rule in a file. -/
inductive Reported (ctx : FileContext) (root : Tree) (v : Violation) : Prop
  | rule {r : Rule} (hr : r.BuiltIn) (hv : v ∈ r.check ctx ⟨root, .ofTree ctx.source root⟩)
  | textRule {r : TextRule} (hr : r.BuiltIn) (hv : v ∈ r.check ctx)

theorem Reported.placed {ctx : FileContext} {root : Tree} {v : Violation}
    (h : Reported ctx root v) (hroot : root.WellPlaced ctx.source.chars) :
    v.Placed ctx.source root.nodes := by
  cases h with
  | rule hr hv => exact (hr.marks hroot hv).placed hroot.fits
  | textRule hr hv => exact (hr.marks hv).placed hroot.fits

/-- **Every fix of a built-in rule can be placed.** In a file with a well placed tree, the violations
of built-in rules and their edits cover ranges of whole characters of the text, as do those of text
rules in any file. So in a batch of such edits only overlaps are refused, and something is applied if
there is anything to fix; and when a fix run settles, its text has nothing left to fix. -/
theorem builtIn_fixes_progress (a : Analyzer) (g : Grammar) (path : Path) (ha : a.BuiltIn)
    (hg : g.PlacesWell) :
    (∀ (r : Rule) (ctx : FileContext) (root : Tree), r.BuiltIn →
      root.WellPlaced ctx.source.chars →
      ∀ v ∈ r.check ctx ⟨root, .ofTree ctx.source root⟩, v.Placed ctx.source root.nodes) ∧
    (∀ (r : TextRule) (ctx : FileContext), r.BuiltIn →
      ∀ v ∈ r.check ctx, v.Placed ctx.source []) ∧
    (∀ (ctx : FileContext) (root : Tree) (vs : List Violation),
      root.WellPlaced ctx.source.chars → (∀ v ∈ vs, Reported ctx root v) →
      Violation.Progress ctx.source.content vs) ∧
    ∀ content,
      (∀ vs, a.analyzeSource g path content = .ok vs → Violation.Progress content vs) ∧
      ∀ fixed, a.fixSource g path content = .ok fixed → fixed.stop = .settled →
        ∃ vs, a.analyzeSource g path fixed.content = .ok vs ∧ ∀ v ∈ vs, v.isFixable = false := by
  refine ⟨?_, ?_, ?_, fun content => ⟨fun vs h => ?_, fun fixed h hstop => ?_⟩⟩
  · intro r ctx root hr hroot v hv
    exact (Reported.rule hr hv).placed hroot
  · intro r ctx hr v hv
    exact (hr.marks hv).placed fun n hn => by cases hn
  · intro ctx root vs hroot hvs
    apply Violation.progress_of_fits
    intro v hv e he
    rw [← ctx.source.chars_eq]
    exact ((hvs v hv).placed hroot).edit_fits he
  · exact Analyzer.progress ha hg h
  · exact Analyzer.not_isFixable_of_settled ha hg h hstop

/-- An analyzer with all rules and no configuration. -/
def everyRule : Analyzer where
  root := ⟨"/"⟩
  surroundings := { workingDir := ⟨"/"⟩ }
  rules := allRules {}
  textRules := allTextRules {}
  exclude := []
  config := {}
  failOnParseError := false

/-- A call with an option to remove, which has a name to replace in it. -/
def optionCall : FileContext :=
  .inProject ⟨"/a.rb"⟩ "field :a, camelize: T::ImmutableStruct\n" ⟨"/"⟩

/-- Its tree. -/
def optionTree : Tree :=
  .node { kind := .other "program", span := ⟨0, 39⟩ }
    [.node { kind := .call, span := ⟨0, 38⟩ }
      [.node { kind := .identifier, span := ⟨0, 5⟩, field := some .method } [],
        .node { kind := .other "argument_list", span := ⟨6, 38⟩, field := some .arguments }
          [.node { kind := .other "simple_symbol", span := ⟨6, 8⟩ } [],
            .node { kind := .pair, span := ⟨10, 38⟩ }
              [.node { kind := .other "hash_key_symbol", span := ⟨10, 18⟩, field := some .key } [],
                .node { kind := .scopeResolution, span := ⟨20, 38⟩ }
                  [.node { kind := .constant, span := ⟨20, 21⟩, field := some .scope } [],
                    .node { kind := .constant, span := ⟨23, 38⟩, field := some .name } []]]]]]

/-- The grammar of this call and of the call without its option. -/
def fieldCalls : Grammar := fun text =>
  if text = optionCall.source.content then some optionTree
  else if text = "field :a\n" then
    some (.node { kind := .other "program", span := ⟨0, 9⟩ }
      [.node { kind := .call, span := ⟨0, 8⟩ }
        [.node { kind := .identifier, span := ⟨0, 5⟩, field := some .method } [],
          .node { kind := .other "argument_list", span := ⟨6, 8⟩, field := some .arguments }
            [.node { kind := .other "simple_symbol", span := ⟨6, 8⟩ } []]]])
  else none

theorem optionTree_wellPlaced : optionTree.WellPlaced optionCall.source.chars := by
  decide +kernel

theorem fieldCalls_placesWell : fieldCalls.PlacesWell := by
  intro text root h
  unfold fieldCalls at h
  split at h
  · rename_i htext
    cases h
    rw [htext]
    exact optionTree_wellPlaced
  · split at h
    · rename_i htext
      cases h
      rw [htext]
      decide +kernel
    · cases h

/-- The name is refused for the option around it, and the run settles without either. -/
theorem builtIn_fixes_progress_fieldCalls :
    everyRule.BuiltIn ∧ fieldCalls.PlacesWell ∧
      (Camelize.rule.check optionCall ⟨optionTree, .ofTree optionCall.source optionTree⟩).length = 1 ∧
      (∀ v ∈ Camelize.rule.check optionCall ⟨optionTree, .ofTree optionCall.source optionTree⟩,
        v.Placed optionCall.source optionTree.nodes) ∧
      everyRule.revise fieldCalls ⟨"/a.rb"⟩ optionCall.source.content = ⟨"field :a\n", 1, 1⟩ ∧
      (∀ vs, everyRule.analyzeSource fieldCalls ⟨"/a.rb"⟩ optionCall.source.content = .ok vs →
        Violation.Progress optionCall.source.content vs) ∧
      everyRule.fixSource fieldCalls ⟨"/a.rb"⟩ optionCall.source.content =
        .ok ⟨"field :a\n", 1, .settled⟩ ∧
      ∃ vs, everyRule.analyzeSource fieldCalls ⟨"/a.rb"⟩ "field :a\n" = .ok vs ∧
        ∀ v ∈ vs, v.isFixable = false := by
  have ha : everyRule.BuiltIn := ⟨allRules_builtIn {}, allTextRules_builtIn {}⟩
  obtain ⟨hplaced, -, -, hruns⟩ :=
    builtIn_fixes_progress everyRule fieldCalls ⟨"/a.rb"⟩ ha fieldCalls_placesWell
  obtain ⟨hpass, hsettled⟩ := hruns optionCall.source.content
  have hfirst : everyRule.revise fieldCalls ⟨"/a.rb"⟩ optionCall.source.content =
      ⟨"field :a\n", 1, 1⟩ := by
    cbv
  have hreads : everyRule.reads fieldCalls ⟨"/a.rb"⟩ "field :a\n" = true := by
    rw [Analyzer.reads_eq]; cbv
  have hsecond : (everyRule.revise fieldCalls ⟨"/a.rb"⟩ "field :a\n").applied = 0 := by cbv
  have hfix : everyRule.fixSource fieldCalls ⟨"/a.rb"⟩ optionCall.source.content =
      .ok ⟨"field :a\n", 1, .settled⟩ := by
    have happlied : 0 <
        (everyRule.revise fieldCalls ⟨"/a.rb"⟩ optionCall.source.content).applied := by
      rw [hfirst]; decide
    rw [Analyzer.fixSource_of_reads (Analyzer.reads_of_applied happlied), maxFixPasses,
      Analyzer.fixPasses_edit happlied, hfirst, Analyzer.fixPasses_settled hreads hsecond]
    rfl
  refine ⟨ha, fieldCalls_placesWell, by cbv, ?_, hfirst, hpass, hfix, hsettled _ hfix rfl⟩
  exact hplaced _ optionCall optionTree .camelize optionTree_wellPlaced

end RubyLint
