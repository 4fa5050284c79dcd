import Mathlib
import RubyLint.Proofs.FixPasses
import RubyLint.Proofs.Marked
import RubyLint.Proofs.Splice

/-!
# Templates are mended in one pass

The scan for boolean operators passes over a template once and takes two characters at a time. What its
edits leave is the text in which both operators are replaced everywhere, and in it there is nothing
left to find: the words keep apart what stood on either side of an operator.

* `Text.replaceAll`: all occurrences of a text replaced by another one.
* `LiquidWords.operatorsInBytes_bytes`: a scan over bytes finds the same operators.
* `LiquidWords.reworded`: the template as the scan leaves it.
* `woven_operators`: the edits of the scan give that text.
* `reworded_eq`: it is the text with one operator replaced and then the other.
* `operators_eq_nil_iff`, `not_infix_reworded`: the scan misses nothing, and nothing is left for it.
* `fixes_templates`: **the fix of a template is complete in one pass.**
-/

namespace RubyLint

namespace Text

/-- The text with the occurrences of `sought` replaced by `word`, when its first `skip` characters belong
to an occurrence that was replaced already. -/
def replaceFrom (sought word : List Char) : Nat → List Char → List Char
  | _, [] => []
  | skip + 1, _ :: cs => replaceFrom sought word skip cs
  | 0, c :: cs =>
    if sought.isPrefixOf (c :: cs) then word ++ replaceFrom sought word (sought.length - 1) cs
    else c :: replaceFrom sought word 0 cs

/-- The text with all occurrences of `sought` replaced by `word`, from left to right and without
overlaps. -/
def replaceAll (sought word cs : List Char) : List Char :=
  replaceFrom sought word 0 cs

variable {sought word cs : List Char} {c : Char}

theorem replaceFrom_append (l cs : List Char) :
    replaceFrom sought word l.length (l ++ cs) = replaceAll sought word cs := by
  induction l with
  | nil => rfl
  | cons c l ih => rw [List.cons_append, List.length_cons, replaceFrom, ih]

/-- An occurrence at the start is replaced. -/
theorem replaceAll_append (h : sought ≠ []) :
    replaceAll sought word (sought ++ cs) = word ++ replaceAll sought word cs := by
  obtain ⟨c, rest, rfl⟩ := List.exists_cons_of_ne_nil h
  have hprefix : (c :: rest).isPrefixOf (c :: (rest ++ cs)) = true :=
    List.isPrefixOf_iff_prefix.2 (List.prefix_append (c :: rest) cs)
  unfold replaceAll
  rw [List.cons_append, replaceFrom, if_pos hprefix, List.length_cons, Nat.add_sub_cancel,
    replaceFrom_append]
  rfl

/-- A character that starts no occurrence is kept. -/
theorem replaceAll_cons (h : ¬sought <+: c :: cs) :
    replaceAll sought word (c :: cs) = c :: replaceAll sought word cs := by
  unfold replaceAll
  rw [replaceFrom, if_neg (fun hprefix => h (List.isPrefixOf_iff_prefix.1 hprefix))]

/-- Characters other than the first one of `sought` are kept. -/
theorem replaceAll_append_of_not_mem {l : List Char} (h : c ∉ l) :
    replaceAll (c :: sought) word (l ++ cs) = l ++ replaceAll (c :: sought) word cs := by
  induction l with
  | nil => rfl
  | cons d l ih =>
    rw [List.mem_cons, not_or] at h
    rw [List.cons_append, replaceAll_cons fun hprefix => h.1 (List.cons_prefix_cons.1 hprefix).1,
      ih h.2, List.cons_append]

end Text

namespace LiquidWords

open Text Edit

variable {cs : List Char} {c : Char} {op : Operator}

/-- The character that an operator consists of, twice. -/
def Operator.mark : Operator → Char
  | .or => '|'
  | .and => '&'

theorem Operator.symbol_eq (op : Operator) : op.symbol.toList = [op.mark, op.mark] := by
  cases op <;> rfl

theorem symbol_prefix_iff : op.symbol.toList <+: c :: cs ↔ c = op.mark ∧ cs.head? = some op.mark := by
  rw [op.symbol_eq, List.cons_prefix_cons]
  cases cs with
  | nil => simp
  | cons d cs => simp [List.cons_prefix_cons, eq_comm]

/-- A text that is scanned by a single character starts with no operator. -/
theorem not_symbol_prefix (hor : ∀ rest, c = '|' → cs = '|' :: rest → False)
    (hand : ∀ rest, c = '&' → cs = '&' :: rest → False) (op : Operator) :
    ¬op.symbol.toList <+: c :: cs := by
  intro h
  obtain ⟨hc, hhead⟩ := symbol_prefix_iff.1 h
  obtain ⟨rest, hrest⟩ := List.head?_eq_some_iff.1 hhead
  cases op with
  | or => exact hor rest hc hrest
  | and => exact hand rest hc hrest

/-! ## Bytes and characters -/

/-- The operator that two bytes are, if they are one. -/
def ofBytes? (a b : UInt8) : Option Operator :=
  [Operator.or, Operator.and].find? fun op => bytes op.symbol.toList == [a, b]

/-- The operators among the bytes from `offset` on: two bytes are looked at, and passed over if they are
an operator, and otherwise the first of them is. -/
def operatorsInBytes (offset : Nat) : List UInt8 → List (Nat × Operator)
  | a :: b :: bs =>
    match ofBytes? a b with
    | some op => (offset, op) :: operatorsInBytes (offset + 2) bs
    | none => operatorsInBytes (offset + 1) (b :: bs)
  | _ => []

/-- The byte that an operator consists of, twice. -/
def Operator.byte : Operator → UInt8
  | .or => 0x7C
  | .and => 0x26

theorem ofBytes?_eq_some_iff {a b : UInt8} :
    ofBytes? a b = some op ↔ a = op.byte ∧ b = op.byte := by
  constructor
  · intro h
    have hop : (bytes op.symbol.toList == [a, b]) = true :=
      List.find?_some (p := fun op : Operator => bytes op.symbol.toList == [a, b]) h
    have hbytes : bytes op.symbol.toList = [op.byte, op.byte] := by cases op <;> rfl
    rw [hbytes, beq_iff_eq] at hop
    cases hop
    exact ⟨rfl, rfl⟩
  · rintro ⟨rfl, rfl⟩
    cases op <;> rfl

/-- The byte of an operator occurs in no character but its mark. -/
theorem eq_mark_of_mem (h : op.byte ∈ String.utf8EncodeChar c) : c = op.mark := by
  have hbyte : op.byte.toNat < 128 ∧ op.byte.toNat = op.mark.toNat := by cases op <;> decide
  exact Char.toNat_inj.1 ((toNat_of_mem_utf8EncodeChar h hbyte.1).trans hbyte.2)

theorem operatorsInBytes_cons {b : UInt8} {bs : List UInt8}
    (h : ∀ op : Operator, b = op.byte → bs.head? ≠ some op.byte) (offset : Nat) :
    operatorsInBytes offset (b :: bs) = operatorsInBytes (offset + 1) bs := by
  cases bs with
  | nil => rfl
  | cons d bs =>
    have hnone : ofBytes? b d = none := by
      cases hop : ofBytes? b d with
      | none => rfl
      | some op =>
        obtain ⟨hb, rfl⟩ := ofBytes?_eq_some_iff.1 hop
        exact absurd rfl (h op hb)
    rw [operatorsInBytes, hnone]

/-- Bytes of no operator are passed over. -/
theorem operatorsInBytes_append {l bs : List UInt8} (h : ∀ op : Operator, op.byte ∉ l) (offset : Nat) :
    operatorsInBytes offset (l ++ bs) = operatorsInBytes (offset + l.length) bs := by
  induction l generalizing offset with
  | nil => rfl
  | cons b l ih =>
    have hb : ∀ op : Operator, b ≠ op.byte := fun op hb => h op (hb ▸ List.mem_cons_self)
    rw [List.cons_append, operatorsInBytes_cons (fun op hop => absurd hop (hb op)),
      ih fun op hop => h op (List.mem_cons_of_mem b hop), List.length_cons, Nat.add_assoc,
      Nat.add_comm 1]

/-- The first byte of a text is that of an operator only if its first character is. -/
theorem head?_bytes (h : (bytes cs).head? = some op.byte) : cs.head? = some op.mark := by
  cases cs with
  | nil => cases h
  | cons c cs =>
    rw [bytes_cons, List.head?_append_of_ne_nil _ String.utf8EncodeChar_ne_nil] at h
    rw [List.head?_cons, eq_mark_of_mem (List.mem_of_head? h)]

/-- **The scan over bytes** finds the operators of the text: it never takes a part of a character for
one. -/
theorem operatorsInBytes_bytes (offset : Nat) (cs : List Char) :
    operatorsInBytes offset (bytes cs) = operators offset cs := by
  fun_induction operators offset cs with
  | case1 offset cs ih | case2 offset cs ih =>
    rw [← ih]
    rfl
  | case3 offset c cs hor hand ih =>
    rw [← ih, bytes_cons, ← String.length_utf8EncodeChar]
    by_cases hc : ∃ op : Operator, c = op.mark
    · -- a mark alone: the next character is no mark of the same operator
      obtain ⟨op, rfl⟩ := hc
      have hbyte : String.utf8EncodeChar op.mark = [op.byte] := by cases op <;> rfl
      rw [hbyte]
      refine operatorsInBytes_cons (fun op' hop' hhead => ?_) offset
      have hmark : op.mark = op'.mark :=
        eq_mark_of_mem (by rw [hbyte, ← hop']; exact List.mem_singleton_self _)
      exact not_symbol_prefix hor hand op' (symbol_prefix_iff.2 ⟨hmark, head?_bytes hhead⟩)
    · exact operatorsInBytes_append (fun op hop => hc ⟨op, eq_mark_of_mem hop⟩) offset
  | case4 offset => rfl

/-! ## The text that the edits leave -/

/-- A text with its operators as words. -/
def reworded : List Char → List Char
  | '|' :: '|' :: cs => Operator.or.word.toList ++ reworded cs
  | '&' :: '&' :: cs => Operator.and.word.toList ++ reworded cs
  | c :: cs => c :: reworded cs
  | [] => []

/-- The edit that mends an operator. -/
def edit (ctx : FileContext) (offset : Nat) (op : Operator) : Edit :=
  ⟨ctx.location offset (offset + 2), op.word⟩

theorem filterMap_edit_check (ctx : FileContext) :
    (check ctx).filterMap (·.edit?) =
      (operators 0 ctx.source.chars).map fun found => edit ctx found.1 found.2 := by
  unfold check
  rw [List.filterMap_map, ← List.filterMap_eq_map]
  rfl

theorem Woven.operator {ctx : FileContext} {offset : Nat} {es : List Edit} {old new : List Char}
    (op : Operator) (h : Woven (offset + 2) es old new) :
    Woven offset (edit ctx offset op :: es) (op.symbol.toList ++ old) (op.word.toList ++ new) := by
  have hlength : (edit ctx offset op).location.length = 2 := Nat.add_sub_cancel_left offset 2
  refine .edit [] op.symbol.toList rfl (op.width_symbol.trans hlength.symm) ?_
  rw [stop_eq, hlength]
  exact h

/-- **What the edits of the scan make of a text.** -/
theorem woven_operators (ctx : FileContext) (offset : Nat) (cs : List Char) :
    Woven offset ((operators offset cs).map fun found => edit ctx found.1 found.2) cs
      (reworded cs) := by
  fun_induction operators offset cs with
  | case1 offset cs ih => exact Woven.operator .or ih
  | case2 offset cs ih => exact Woven.operator .and ih
  | case3 offset c cs hor hand ih =>
    rw [reworded]
    · exact Edit.Woven.copy [c] ih
    · exact hor
    · exact hand
  | case4 offset => exact .done offset []

/-- Words do not start like operators. -/
theorem head?_reworded (h : (reworded cs).head? = some op.mark) : cs.head? = some op.mark := by
  fun_cases reworded cs with
  | case1 cs | case2 cs => cases op <;> cases h
  | case3 c cs hor hand =>
    rw [reworded] at h
    · exact h
    · exact hor
    · exact hand
  | case4 => cases h

/-- An operator is not found in a word, nor across its end. -/
theorem infix_of_infix_append {word rest : List Char} (hword : op.mark ∉ word)
    (h : op.symbol.toList <:+: word ++ rest) : op.symbol.toList <:+: rest := by
  induction word with
  | nil => exact h
  | cons c word ih =>
    rw [List.mem_cons, not_or] at hword
    rcases List.infix_cons_iff.1 h with h | h
    · exact absurd (symbol_prefix_iff.1 h).1.symm hword.1
    · exact ih hword.2 h

theorem mark_not_mem_word (op op' : Operator) : op.mark ∉ op'.word.toList := by
  cases op <;> cases op' <;> decide

/-- **Nothing is left to find.** -/
theorem not_infix_reworded (op : Operator) (cs : List Char) :
    ¬op.symbol.toList <:+: reworded cs := by
  fun_induction reworded cs with
  | case1 cs ih => exact fun h => ih (infix_of_infix_append (mark_not_mem_word op .or) h)
  | case2 cs ih => exact fun h => ih (infix_of_infix_append (mark_not_mem_word op .and) h)
  | case3 c cs hor hand ih =>
    intro h
    rcases List.infix_cons_iff.1 h with h | h
    · -- two marks in a row would have been two marks in a row before
      obtain ⟨hc, hhead⟩ := symbol_prefix_iff.1 h
      exact not_symbol_prefix hor hand op (symbol_prefix_iff.2 ⟨hc, head?_reworded hhead⟩)
    · exact ih h
  | case4 => cases op <;> simp [Operator.symbol]

/-- **The scan finds something exactly if there is an operator.** -/
theorem operators_eq_nil_iff (offset : Nat) (cs : List Char) :
    operators offset cs = [] ↔ ∀ op : Operator, ¬op.symbol.toList <:+: cs := by
  constructor
  · intro h op
    fun_induction operators offset cs with
    | case1 | case2 => cases h
    | case3 offset c cs hor hand ih =>
      intro hop
      rcases List.infix_cons_iff.1 hop with hop | hop
      · exact not_symbol_prefix hor hand op hop
      · exact ih h hop
    | case4 => cases op <;> simp [Operator.symbol]
  · intro h
    refine List.eq_nil_iff_forall_not_mem.2 ?_
    rintro ⟨n, op⟩ hop
    obtain ⟨front, back, hsplit, -⟩ := mem_operators hop
    exact h op ⟨front, back, hsplit.symm⟩

/-- A text with all occurrences of one operator as words. -/
def Operator.spellOut (op : Operator) (cs : List Char) : List Char :=
  replaceAll op.symbol.toList op.word.toList cs

theorem spellOut_symbol (op : Operator) (cs : List Char) :
    op.spellOut (op.symbol.toList ++ cs) = op.word.toList ++ op.spellOut cs :=
  replaceAll_append (by rw [op.symbol_eq]; exact List.cons_ne_nil _ _)

theorem spellOut_append {l : List Char} (h : op.mark ∉ l) :
    op.spellOut (l ++ cs) = l ++ op.spellOut cs := by
  unfold Operator.spellOut
  rw [op.symbol_eq]
  exact replaceAll_append_of_not_mem h

theorem spellOut_cons (h : ¬op.symbol.toList <+: c :: cs) :
    op.spellOut (c :: cs) = c :: op.spellOut cs :=
  replaceAll_cons h

/-- Spelling out one operator brings no mark of another one to the front. -/
theorem head?_spellOut {op' : Operator} (h : (op.spellOut cs).head? = some op'.mark) :
    cs.head? = some op'.mark := by
  cases cs with
  | nil => cases h
  | cons c cs =>
    by_cases hop : op.symbol.toList <+: c :: cs
    · obtain ⟨rest, hrest⟩ := hop
      rw [← hrest, spellOut_symbol] at h
      cases op <;> cases op' <;> cases h
    · rw [spellOut_cons hop] at h
      exact h

/-- A template with all `||` and then all `&&` as words. -/
def mended (cs : List Char) : List Char :=
  replaceAll "&&".toList "and".toList (replaceAll "||".toList "or".toList cs)

/-- **The scan replaces one operator and then the other.** -/
theorem reworded_eq (cs : List Char) : reworded cs = mended cs := by
  change reworded cs = Operator.and.spellOut (Operator.or.spellOut cs)
  fun_induction reworded cs with
  | case1 cs ih =>
    have hor := spellOut_symbol .or cs
    rw [ih, show '|' :: '|' :: cs = Operator.or.symbol.toList ++ cs from rfl, hor,
      spellOut_append (mark_not_mem_word .and .or)]
  | case2 cs ih =>
    have hkept : Operator.or.mark ∉ Operator.and.symbol.toList := by decide
    rw [ih, show '&' :: '&' :: cs = Operator.and.symbol.toList ++ cs from rfl,
      spellOut_append hkept, spellOut_symbol]
  | case3 c cs hor hand ih =>
    have hno := not_symbol_prefix hor hand
    rw [spellOut_cons (hno .or), spellOut_cons, ih]
    -- an operator in front now was one in front before
    intro h
    obtain ⟨hc, hhead⟩ := symbol_prefix_iff.1 h
    exact hno .and (symbol_prefix_iff.2 ⟨hc, head?_spellOut hhead⟩)
  | case4 => rfl

theorem mended_of_operators (h : operators 0 cs = []) : mended cs = cs := by
  have hwoven := woven_operators (.standalone ⟨""⟩ "") 0 cs
  rw [h, reworded_eq] at hwoven
  generalize mended cs = new at hwoven ⊢
  cases hwoven
  rfl

/-- Whatever else violations say, the edits of the operators in a text mend it. -/
theorem applyFixes_of_edits (ctx : FileContext) {vs : List Violation}
    (h : vs.filterMap (·.edit?) = (check ctx).filterMap (·.edit?)) :
    Violation.applyFixes ctx.source.content vs =
      ⟨String.ofList (mended ctx.source.chars), (check ctx).length, 0⟩ := by
  have hwoven := woven_operators ctx 0 ctx.source.chars
  rw [reworded_eq] at hwoven
  nth_rewrite 2 [ctx.source.chars_eq] at hwoven
  have hlength : ((operators 0 ctx.source.chars).map fun found => edit ctx found.1 found.2).length =
      (check ctx).length := by
    unfold check; rw [List.length_map, List.length_map]
  unfold Violation.applyFixes
  rw [h, filterMap_edit_check, applyAll_of_woven hwoven, hlength]

/-- A mended template has no violations. -/
theorem check_eq_nil {ctx : FileContext} {cs : List Char} (h : ctx.source.chars = mended cs) :
    check ctx = [] := by
  have hnone : operators 0 ctx.source.chars = [] := by
    rw [operators_eq_nil_iff, h, ← reworded_eq]
    exact fun op => not_infix_reworded op cs
  unfold check
  rw [hnone, List.map_nil]

end LiquidWords

namespace Analyzer

open LiquidWords

variable {a : Analyzer} {g : Grammar} {path : Path}

theorem filterMap_edit_overrideSeverity (config : Config) (rule : String) (vs : List Violation) :
    (config.overrideSeverity rule vs).filterMap (·.edit?) = vs.filterMap (·.edit?) := by
  unfold Config.overrideSeverity
  split
  · rw [List.filterMap_map]
    rfl
  · rfl

/-- An analyzer that looks at templates for their operators, and for nothing else. -/
structure ReadsTemplates (a : Analyzer) : Prop where
  textRules : a.textRules = [LiquidWords.rule]
  enabled : a.config.isEnabled LiquidWords.info.name = true

theorem not_isRuby_of_liquid (h : path.extension? = some "liquid") : isRuby path = false := by
  have hname : path.fileName?.any rubyNames.contains = false := by
    cases hfile : path.fileName? with
    | none => rfl
    | some name =>
      -- the names of Ruby files have no extension
      refine Bool.eq_false_iff.2 fun hruby => ?_
      have hmem : name = "Gemfile" ∨ name = "Rakefile" := by
        simpa [rubyNames] using hruby
      unfold Path.extension? at h
      rw [hfile, Option.bind_eq_bind, Option.bind_some] at h
      rcases hmem with rfl | rfl <;> cases h
  unfold isRuby
  rw [h, hname]
  decide

/-- What is found in a template. -/
theorem ReadsTemplates.analyzeSource_eq (ha : a.ReadsTemplates)
    (hpath : path.extension? = some "liquid") (content : String) :
    a.analyzeSource g path content =
      .ok (a.runTextRule (.inProject path content a.root) (.ofText content.toList)
        LiquidWords.rule) := by
  have hrules : a.textRulesFor path = [LiquidWords.rule] := by
    have hon : a.config.isEnabled LiquidWords.rule.name = true := ha.enabled
    have hext : LiquidWords.rule.extensions.contains "liquid" = true := by decide
    unfold textRulesFor
    rw [ha.textRules, hpath, List.filter_cons, Option.getD_some, hon, hext]
    rfl
  unfold analyzeSource
  rw [not_isRuby_of_liquid hpath, hrules]
  simp only [Bool.false_eq_true, if_false, List.flatMap_cons, List.flatMap_nil, List.append_nil]
  rfl

theorem ReadsTemplates.revise_eq (ha : a.ReadsTemplates) (hpath : path.extension? = some "liquid")
    (content : String) :
    a.revise g path content =
      Violation.applyFixes content
        (a.runTextRule (.inProject path content a.root) (.ofText content.toList)
          LiquidWords.rule) := by
  unfold revise
  rw [ha.analyzeSource_eq hpath]

theorem reads_template (hpath : path.extension? = some "liquid") (content : String) :
    a.reads g path content = true := by
  rw [reads_eq, not_isRuby_of_liquid hpath, Bool.not_false, Bool.true_or]

/-- One pass over a template without directives mends it. -/
theorem ReadsTemplates.revise_mends (ha : a.ReadsTemplates)
    (hpath : path.extension? = some "liquid") {content : String}
    (hfree : (AllowIndex.ofText content.toList).isEmpty = true) :
    a.revise g path content =
      ⟨String.ofList (mended content.toList),
        (LiquidWords.check (.inProject path content a.root)).length, 0⟩ := by
  rw [ha.revise_eq hpath]
  apply applyFixes_of_edits (.inProject path content a.root)
  unfold runTextRule settle
  rw [if_pos hfree]
  exact filterMap_edit_overrideSeverity a.config LiquidWords.rule.name _

/-- A pass over a mended template finds nothing, whatever its directives say. -/
theorem ReadsTemplates.revise_mended (ha : a.ReadsTemplates)
    (hpath : path.extension? = some "liquid") (cs : List Char) :
    (a.revise g path (String.ofList (mended cs))).applied = 0 := by
  have hchars : (FileContext.inProject path (String.ofList (mended cs)) a.root).source.chars =
      mended cs := String.toList_ofList
  have hnone := check_eq_nil hchars
  have hrun : ∀ index, a.runTextRule (.inProject path (String.ofList (mended cs)) a.root) index
      LiquidWords.rule = [] := by
    intro index
    have hoverride : a.config.overrideSeverity LiquidWords.rule.name [] = [] := by
      unfold Config.overrideSeverity; split <;> rfl
    have hcheck : LiquidWords.rule.check
        (.inProject path (String.ofList (mended cs)) a.root) = [] := hnone
    unfold runTextRule settle
    rw [hcheck, hoverride]
    split <;> rfl
  have hpass : Violation.applyFixes (String.ofList (mended cs)) [] = _ :=
    applyFixes_of_edits (.inProject path (String.ofList (mended cs)) a.root) (by rw [hnone])
  rw [ha.revise_eq hpath, hrun, hpass, hnone]
  rfl

end Analyzer

theorem AllowIndex.collect_eq_nil_iff (number : Nat) (lines : List (List Char)) :
    collect number lines = [] ↔ ∀ line ∈ lines, Directive.read? line = none := by
  induction lines generalizing number with
  | nil => simp [collect]
  | cons line lines ih =>
    rw [collect, List.forall_mem_cons, ← ih (number + 1)]
    cases Directive.read? line <;> simp

namespace LiquidWords

/-- **The fix of a template is complete in one pass.** What is reported are the operators among the bytes
of the template, which the scan by characters finds. Their edits all apply, and the result is the text
with all `||` and then all `&&` replaced; neither is left in it, so nothing more is reported. When no
line of a template holds a directive, a fix run that looks for nothing else ends with that text and
counts each violation once. -/
theorem fixes_templates (ctx : FileContext) :
    check ctx = (operatorsInBytes 0 (Text.bytes ctx.source.chars)).map
        (fun found => violation ctx found.1 found.2) ∧
      Violation.applyFixes ctx.source.content (check ctx) =
          ⟨String.ofList (mended ctx.source.chars), (check ctx).length, 0⟩ ∧
      ¬"||".toList <:+: mended ctx.source.chars ∧ ¬"&&".toList <:+: mended ctx.source.chars ∧
      (∀ again : FileContext, again.source.chars = mended ctx.source.chars → check again = []) ∧
      ∀ (a : Analyzer) (g : Grammar) (path : Path) (content : String), a.ReadsTemplates →
        path.extension? = some "liquid" →
        (∀ line ∈ Text.lines content.toList, Directive.read? line = none) →
        a.fixSource g path content =
          .ok ⟨String.ofList (mended content.toList),
            (check (.inProject path content a.root)).length, .settled⟩ := by
  refine ⟨by rw [operatorsInBytes_bytes]; rfl, applyFixes_of_edits ctx rfl, ?_, ?_,
    fun again hagain => check_eq_nil hagain, ?_⟩
  · rw [← reworded_eq]
    exact not_infix_reworded .or ctx.source.chars
  · rw [← reworded_eq]
    exact not_infix_reworded .and ctx.source.chars
  · intro a g path content ha hpath hlines
    have hfree : (AllowIndex.ofText content.toList).isEmpty = true :=
      List.isEmpty_iff.2 ((AllowIndex.collect_eq_nil_iff 1 _).2 hlines)
    have hfirst := ha.revise_mends (g := g) hpath hfree
    have hlast := ha.revise_mended (g := g) hpath content.toList
    rw [Analyzer.fixSource_of_reads (Analyzer.reads_template hpath content), maxFixPasses]
    rcases Nat.eq_zero_or_pos (check (.inProject path content a.root)).length with hzero | hpos
    · -- without operators the text is mended already
      have hnone : (a.revise g path content).applied = 0 := by rw [hfirst]; exact hzero
      have hsame : String.ofList (mended content.toList) = content := by
        have hnil : operators 0 content.toList = [] :=
          List.map_eq_nil_iff.1 (List.length_eq_zero_iff.1 hzero)
        rw [mended_of_operators hnil, String.ofList_toList]
      rw [Analyzer.fixPasses_settled (Analyzer.reads_template hpath content) hnone, hsame, hzero]
    · have happlied : 0 < (a.revise g path content).applied := by rw [hfirst]; exact hpos
      rw [Analyzer.fixPasses_edit happlied, hfirst, Nat.zero_add,
        Analyzer.fixPasses_settled (Analyzer.reads_template hpath _) hlast]

/-- An analyzer for templates, which reports operators as errors. -/
def templates : Analyzer where
  root := ⟨"/"⟩
  surroundings := { workingDir := ⟨"/"⟩ }
  rules := []
  textRules := [rule]
  exclude := []
  config := { rules := [(info.name, { severity := some .error })] }
  failOnParseError := false

/-- Operators are taken in pairs from the left, so the odd one of a run stays. -/
theorem fixes_templates_runs :
    templates.ReadsTemplates ∧ Path.extension? ⟨"/mail.liquid"⟩ = some "liquid" ∧
      (∀ line ∈ Text.lines "é ||| x &&&& y\n".toList, Directive.read? line = none) ∧
      templates.fixSource (fun _ => none) ⟨"/mail.liquid"⟩ "é ||| x &&&& y\n" =
        .ok ⟨"é or| x andand y\n", 3, .settled⟩ := by
  have ha : templates.ReadsTemplates := ⟨rfl, by cbv⟩
  have hpath : Path.extension? ⟨"/mail.liquid"⟩ = some "liquid" := by cbv
  have hlines : ∀ line ∈ Text.lines "é ||| x &&&& y\n".toList, Directive.read? line = none := by
    decide
  obtain ⟨-, -, -, -, -, hfix⟩ := fixes_templates (.standalone ⟨"/mail.liquid"⟩ "é ||| x &&&& y\n")
  have hcount : (check (.inProject ⟨"/mail.liquid"⟩ "é ||| x &&&& y\n" templates.root)).length =
      3 := by
    cbv
  have htext : String.ofList (mended "é ||| x &&&& y\n".toList) = "é or| x andand y\n" := by cbv
  refine ⟨ha, hpath, hlines, ?_⟩
  rw [hfix templates (fun _ => none) ⟨"/mail.liquid"⟩ "é ||| x &&&& y\n" ha hpath hlines, hcount,
    htext]

end LiquidWords

end RubyLint
