import RubyLint.Allow
import RubyLint.Proofs.Offsets
import RubyLint.Proofs.Pieces

/-!
# Directives read back as written

A directive is written behind some code, with blanks wherever they are allowed. Reading takes the text
apart with a search for the marker, trims, and cuts at the first parenthesis, at commas and at the
first quote. None of these takes away a part of what was written: names have no comma and no closing
parenthesis, reasons have no quote, and the code in front has no marker. Beyond that, names and reasons
may be any text, even one that looks like a directive.

* `Directive.Written`: a directive as it is written; `Written.line`: the line with it.
* `Directive.Unmarked`: code without a marker; `body?_eq_none_iff`: this is what the search tells.
* `Directive.read?_parts`: **how a line with a marker and parentheses is read.**
* `Directive.names_pieces`, `Directive.reason?_quoted`: names and a reason, read back.
* `Directive.readAt?`: reading by byte offsets; `readAt?_eq`: **it cuts only between characters.**
* `Directive.read?_written`: **a directive reads back as it was written.**
-/

namespace RubyLint

namespace Text

variable {sep : Char} {front cs l r : List Char}

/-- The byte offsets of a character in a text that stands behind `offset` bytes. -/
def offsetsOf (sep : Char) : Nat → List Char → List Nat
  | _, [] => []
  | offset, c :: cs =>
    if c = sep then offset :: offsetsOf sep (offset + c.utf8Size) cs
    else offsetsOf sep (offset + c.utf8Size) cs

/-- The byte offset of the first such character is the width of what is in front of it. -/
theorem head?_offsetsOf (sep : Char) (offset : Nat) (cs : List Char) :
    (offsetsOf sep offset cs).head? = (splitFirst? sep cs).map (offset + width ·.1) := by
  induction cs generalizing offset with
  | nil => rfl
  | cons c cs ih =>
    unfold offsetsOf splitFirst?
    split
    · rfl
    · rw [ih, Option.map_map]
      congr 1
      funext cut
      exact Nat.add_assoc offset c.utf8Size (width cut.1)

/-- A character of one byte is passed by adding one to its offset. -/
theorem from?_behind (hsep : sep.utf8Size = 1) (l r : List Char) :
    from? (width l + 1) (l ++ sep :: r) = some r := by
  have hsplit : l ++ sep :: r = (l ++ [sep]) ++ r := by simp
  have hwidth : width l + 1 = width (l ++ [sep]) := by simp [width, hsep]
  rw [hsplit, hwidth]
  exact from?_append (l ++ [sep]) r

end Text

namespace Directive

open Text

/-! ## What is written -/

/-- Code without a marker: no `#` in it is followed, blanks aside, by the word that starts a
directive. -/
def Unmarked (code : List Char) : Prop :=
  ∀ front blanks back, code = front ++ '#' :: (blanks ++ (marker ++ back)) → ¬ Blank blanks

theorem Unmarked.tail {c : Char} {code : List Char} (h : Unmarked (c :: code)) : Unmarked code := by
  intro front blanks back hcode
  exact h (c :: front) blanks back (by rw [hcode, List.cons_append])

/-- A search behind blanks finds the marker. -/
theorem marker_behind {blanks : List Char} (h : Blank blanks) (back : List Char) :
    after? marker (trimStart (blanks ++ (marker ++ back))) = some back := by
  have hmarker : marker ++ back = 'r' :: ("b-lint:".toList ++ back) := rfl
  have hr : isBlank 'r' = false := by decide
  rw [trimStart_blank h, hmarker]
  change after? marker (trimStart ([] ++ 'r' :: ("b-lint:".toList ++ back))) = some back
  rw [trimStart_append_cons hr]
  exact after?_append marker back

/-- Where the marker follows blanks, the text is its place. -/
theorem exists_blanks {cs body : List Char} (h : after? marker (trimStart cs) = some body) :
    ∃ blanks, Blank blanks ∧ cs = blanks ++ (marker ++ body) := by
  refine ⟨cs.takeWhile isBlank, fun c hc => List.mem_takeWhile_imp hc, ?_⟩
  rw [← after?_eq_some_iff.1 h]
  exact List.takeWhile_append_dropWhile.symm

/-- **The search fails exactly on code without a marker.** -/
theorem body?_eq_none_iff (code : List Char) : body? code = none ↔ Unmarked code := by
  constructor
  · intro hnone front blanks back hcode hblank
    induction front generalizing code with
    | nil =>
      rw [hcode, List.nil_append, body?, if_pos rfl, marker_behind hblank] at hnone
      cases hnone
    | cons c front ih =>
      rw [hcode, List.cons_append, body?] at hnone
      split at hnone
      · split at hnone
        · cases hnone
        · exact ih _ hnone rfl
      · exact ih _ hnone rfl
  · intro h
    induction code with
    | nil => rfl
    | cons c code ih =>
      rw [body?]
      split
      · rename_i hc
        subst hc
        cases hmarker : after? marker (trimStart code) with
        | none => exact ih h.tail
        | some body =>
          obtain ⟨blanks, hblanks, hcode⟩ := exists_blanks hmarker
          exact absurd hblanks (h [] blanks body (by rw [hcode, List.nil_append]))
      · exact ih h.tail

instance (code : List Char) : Decidable (Unmarked code) :=
  decidable_of_iff _ (body?_eq_none_iff code)

/-- A rule name in a directive, with the blanks on either side. -/
structure Entry where
  before : List Char := []
  name : String
  after : List Char := []
  before_blank : Blank before := by decide
  after_blank : Blank after := by decide
  name_ne : name.toList ≠ [] := by decide
  name_tight : Tight name.toList := by decide
  no_comma : ',' ∉ name.toList := by decide
  no_paren : ')' ∉ name.toList := by decide

/-- A reason in a directive, with the blanks on either side of `reason=`. -/
structure Reason where
  before : List Char := []
  after : List Char := []
  text : String
  before_blank : Blank before := by decide
  after_blank : Blank after := by decide
  no_quote : '"' ∉ text.toList := by decide

/-- **A directive as it is written**, behind code that has no marker. -/
structure Written where
  code : List Char := []
  afterHash : List Char := []
  afterMarker : List Char := []
  entries : List Entry
  reason : Option Reason := none
  ending : List Char := []
  code_unmarked : Unmarked code := by decide
  afterHash_blank : Blank afterHash := by decide
  afterMarker_blank : Blank afterMarker := by decide
  entries_ne : entries ≠ [] := by simp
  ending_blank : Blank ending := by decide

/-- A name with its blanks. -/
def Entry.chars (e : Entry) : List Char :=
  e.before ++ (e.name.toList ++ e.after)

/-- A reason with its blanks, from the closing parenthesis on. -/
def Reason.chars (r : Reason) : List Char :=
  r.before ++ ("reason=".toList ++ (r.after ++ '"' :: (r.text.toList ++ ['"'])))

namespace Written

/-- The text between the parentheses. -/
def list (w : Written) : List Char :=
  [','].intercalate (w.entries.map Entry.chars)

/-- The text behind the closing parenthesis. -/
def rest (w : Written) : List Char :=
  ((w.reason.map Reason.chars).getD []) ++ w.ending

/-- The line with a directive. -/
def line (w : Written) : List Char :=
  w.code ++ '#' :: (w.afterHash ++ (marker ++
    (w.afterMarker ++ ("allow(".toList ++ (w.list ++ ')' :: w.rest)))))

end Written

/-! ## How it is read -/

/-- The first marker is found behind code that has none. -/
theorem body?_behind {code blanks : List Char} (hcode : Unmarked code) (hblanks : Blank blanks)
    (back : List Char) : body? (code ++ '#' :: (blanks ++ (marker ++ back))) = some back := by
  induction code with
  | nil => rw [List.nil_append, body?, if_pos rfl, marker_behind hblanks]
  | cons c code ih =>
    have hhash : isBlank '#' = false := by decide
    rw [List.cons_append, body?]
    split
    · rename_i hc
      subst hc
      cases hmarker : after? marker
          (trimStart (code ++ '#' :: (blanks ++ (marker ++ back)))) with
      | none => exact ih hcode.tail
      | some body =>
        -- the marker has no `#`, so it would end before the one that starts the directive
        have htext := after?_eq_some_iff.1 hmarker
        rw [trimStart_append_cons hhash] at htext
        have hinside : marker <+: trimStart code := by
          rcases List.append_eq_append_iff.1 htext with ⟨gap, hgap, hback⟩ | ⟨gap, hgap, -⟩
          · cases gap with
            | nil =>
              rw [List.append_nil] at hgap
              exact hgap ▸ List.prefix_rfl
            | cons d gap =>
              rw [List.cons_append] at hback
              obtain ⟨rfl, -⟩ := List.cons.inj hback
              have hmem : '#' ∈ marker := by
                rw [hgap]
                simp
              exact absurd hmem (by decide)
          · exact ⟨gap, hgap.symm⟩
        obtain ⟨gap, hgap⟩ := hinside
        obtain ⟨inner, hinner, hsplit⟩ := exists_blanks (after?_eq_some_iff.2 hgap.symm)
        exact absurd hinner (hcode [] inner gap (by rw [hsplit, List.nil_append]))
    · exact ih hcode.tail

theorem not_mem_trimStart {c : Char} {cs : List Char} (h : c ∉ cs) : c ∉ trimStart cs :=
  fun hmem => h ((List.dropWhile_suffix isBlank).subset hmem)

/-- Blanks in front of the list of names do not matter. -/
theorem names_trimStart (list : List Char) : names (trimStart list) = names list := by
  have hcomma : isBlank ',' = false := by decide
  unfold names
  rw [map_trim_splitAll hcomma]

/-- Blanks behind the reason do not matter. -/
theorem reason?_trimEnd (rest : List Char) : reason? (trimEnd rest) = reason? rest := by
  unfold reason?
  rw [trim_trimEnd]

/-- **How a line with a marker and parentheses is read**: the names are those of the list between the
parentheses, and the reason is that of what follows them. -/
theorem read?_parts {code afterHash afterMarker list : List Char} (hcode : Unmarked code)
    (hhash : Blank afterHash) (hmarker : Blank afterMarker) (hlist : ')' ∉ list)
    (hnames : names list ≠ []) (rest : List Char) :
    read? (code ++ '#' :: (afterHash ++ (marker ++
      (afterMarker ++ ("allow(".toList ++ (list ++ ')' :: rest)))))) =
        some { rules := names list, reason := reason? rest } := by
  have ha : isBlank 'a' = false := by decide
  have hparen : isBlank ')' = false := by decide
  have hbody : trim (afterMarker ++ ("allow(".toList ++ (list ++ ')' :: rest))) =
      "allow(".toList ++ (list ++ ')' :: trimEnd rest) := by
    have hstart : trimStart (afterMarker ++ ("allow(".toList ++ (list ++ ')' :: rest))) =
        "allow(".toList ++ (list ++ ')' :: rest) := by
      rw [trimStart_blank hmarker]
      exact trimStart_append_cons ha [] _
    unfold trim
    rw [hstart, ← List.append_assoc, trimEnd_append_cons hparen, List.append_assoc]
  -- trimming reaches the list from the left and the rest from the right, but not past a parenthesis
  have hinside : trim (list ++ ')' :: trimEnd rest) =
      trimStart list ++ ')' :: trimEnd (trimEnd rest) := by
    unfold trim
    rw [trimStart_append_cons hparen, trimEnd_append_cons hparen]
  unfold read?
  rw [body?_behind hcode hhash]
  simp only [Option.bind_eq_bind, Option.bind_some, hbody, after?_append, hinside,
    splitFirst?_append (not_mem_trimStart hlist), names_trimStart, reason?_trimEnd]
  rw [if_neg]
  simpa using hnames

namespace Entry

theorem trim_chars (e : Entry) : trim e.chars = e.name.toList :=
  trim_surrounded e.before_blank e.name_tight e.after_blank

/-- The blanks around a name bring no separator with them. -/
theorem not_mem_chars (e : Entry) {c : Char} (hc : isBlank c = false) (h : c ∉ e.name.toList) :
    c ∉ e.chars := by
  have hnot : ∀ {blanks : List Char}, Blank blanks → c ∉ blanks := by
    intro blanks hblanks hmem
    rw [hblanks c hmem] at hc
    cases hc
  unfold chars
  rw [List.mem_append, List.mem_append]
  rintro (hmem | hmem | hmem)
  · exact hnot e.before_blank hmem
  · exact h hmem
  · exact hnot e.after_blank hmem

end Entry

/-- **Names read back**: what stands between the commas, each once. -/
theorem names_pieces {entries : List Entry} (hne : entries ≠ []) :
    names ([','].intercalate (entries.map Entry.chars)) = (entries.map Entry.name).eraseDups := by
  have hcomma : isBlank ',' = false := by decide
  have hpieces : ∀ piece ∈ entries.map Entry.chars, ',' ∉ piece := by
    intro piece hpiece
    obtain ⟨e, -, rfl⟩ := List.mem_map.1 hpiece
    exact e.not_mem_chars hcomma e.no_comma
  have htrim : (entries.map Entry.chars).map trim = entries.map fun e => e.name.toList := by
    rw [List.map_map]
    exact List.map_congr_left fun e _ => e.trim_chars
  have hkept : (entries.map fun e => e.name.toList).filter (!·.isEmpty) =
      entries.map fun e => e.name.toList := by
    rw [List.filter_eq_self]
    intro piece hpiece
    obtain ⟨e, -, rfl⟩ := List.mem_map.1 hpiece
    simpa using e.name_ne
  unfold names
  rw [splitAll_intercalate hpieces (by simpa using hne), htrim, hkept, List.map_map]
  congr 1
  exact List.map_congr_left fun e _ => String.ofList_toList

theorem names_ne {entries : List Entry} (hne : entries ≠ []) :
    names ([','].intercalate (entries.map Entry.chars)) ≠ [] := by
  rw [names_pieces hne]
  obtain ⟨e, rest, rfl⟩ := List.exists_cons_of_ne_nil hne
  rw [List.map_cons, List.eraseDups_cons]
  exact List.cons_ne_nil _ _

theorem nodup_eraseDups (l : List String) : l.eraseDups.Nodup := by
  cases l with
  | nil => exact List.nodup_nil
  | cons a l =>
    rw [List.eraseDups_cons, List.nodup_cons, List.mem_eraseDups]
    refine ⟨by simp, nodup_eraseDups _⟩
termination_by l.length
decreasing_by exact Nat.lt_succ_of_le (List.length_filter_le _ l)

/-- Blanks alone hold no reason. -/
theorem reason?_blank {blanks : List Char} (h : Blank blanks) : reason? blanks = none := by
  have hnone : trim blanks = [] := by
    have hsurrounded := trim_surrounded h (k := []) ⟨by simp, by simp⟩ (r := []) (by simp [Blank])
    simpa using hsurrounded
  unfold reason?
  rw [hnone]
  rfl

/-- **A reason reads back**, up to its closing quote. -/
theorem reason?_quoted (r : Reason) {ending : List Char} (h : Blank ending) :
    reason? (r.chars ++ ending) = some r.text := by
  have hquoted : Tight ('"' :: (r.text.toList ++ ['"'])) := by
    refine ⟨?_, ?_⟩
    · intro c hc
      cases hc
      decide
    · intro c hc
      rw [← List.cons_append, List.getLast?_append] at hc
      cases hc
      decide
  have hvalue : Tight ("reason=".toList ++ (r.after ++ '"' :: (r.text.toList ++ ['"']))) := by
    refine ⟨?_, ?_⟩
    · intro c hc
      cases hc
      decide
    · intro c hc
      rw [List.getLast?_append, List.getLast?_append, ← List.cons_append, List.getLast?_append] at hc
      cases hc
      decide
  have houter : trim (r.chars ++ ending) =
      "reason=".toList ++ (r.after ++ '"' :: (r.text.toList ++ ['"'])) := by
    unfold Reason.chars
    rw [List.append_assoc]
    exact trim_surrounded r.before_blank hvalue h
  have hinner : trim (r.after ++ '"' :: (r.text.toList ++ ['"'])) =
      ['"'] ++ (r.text.toList ++ '"' :: []) := by
    have hnil : Blank [] := by simp [Blank]
    have hsurrounded := trim_surrounded r.after_blank hquoted hnil
    rw [List.append_nil] at hsurrounded
    exact hsurrounded
  unfold reason?
  rw [houter]
  simp only [Option.bind_eq_bind, after?_append, Option.bind_some, hinner,
    splitFirst?_append r.no_quote, String.ofList_toList]
  rfl

theorem reason?_rest (w : Written) : reason? w.rest = w.reason.map Reason.text := by
  unfold Written.rest
  cases w.reason with
  | none => exact reason?_blank w.ending_blank
  | some r => exact reason?_quoted r w.ending_blank

theorem Written.not_mem_list (w : Written) : ')' ∉ w.list := by
  have hparen : isBlank ')' = false := by decide
  intro hmem
  rcases mem_intercalate hmem with hcomma | ⟨piece, hpiece, hmem⟩
  · cases hcomma
  · obtain ⟨e, -, rfl⟩ := List.mem_map.1 hpiece
    exact e.not_mem_chars hparen e.no_paren hmem

/-! ## Reading by byte offsets -/

/-- What follows the marker after the first of some `#` that, blanks aside, is followed by it. The
outer option is for cuts inside a character. -/
def bodyAt? (line : List Char) : List Nat → Option (Option (List Char))
  | [] => some none
  | offset :: offsets => do
    let behind ← from? (offset + 1) line
    match after? marker (trimStart behind) with
    | some body => return some body
    | none => bodyAt? line offsets

/-- The reason after the parentheses, cut at the byte offset of its closing quote. -/
def reasonAt? (rest : List Char) : Option (Option String) := do
  let some value := after? "reason=".toList (trim rest) | return none
  let some quoted := after? ['"'] (trim value) | return none
  let some stop := (offsetsOf '"' 0 quoted).head? | return none
  let reason ← upTo? stop quoted
  return some (String.ofList reason)

/-- **Reading by byte offsets**: each `#`, the closing parenthesis and the closing quote are found as
offsets, and the text is cut there. The outer option is for cuts inside a character. -/
def readAt? (line : List Char) : Option (Option Directive) := do
  let some body ← bodyAt? line (offsetsOf '#' 0 line) | return none
  let some inside := after? "allow(".toList (trim body) | return none
  let some paren := (offsetsOf ')' 0 (trim inside)).head? | return none
  let list ← upTo? paren (trim inside)
  let rules := names list
  if rules.isEmpty then return none
  let rest ← from? (paren + 1) (trim inside)
  let reason ← reasonAt? rest
  return some { rules, reason }

/-- The marker is looked for behind each `#` of a line, so behind a character. -/
theorem bodyAt?_eq (front cs : List Char) :
    bodyAt? (front ++ cs) (offsetsOf '#' (width front) cs) = some (body? cs) := by
  induction cs generalizing front with
  | nil => rfl
  | cons c cs ih =>
    have hnext := ih (front ++ [c])
    have hwidth : width (front ++ [c]) = width front + c.utf8Size := by simp [width]
    rw [hwidth, List.append_assoc, List.singleton_append] at hnext
    unfold offsetsOf body?
    split
    · rename_i hc
      subst hc
      have hbehind : from? (width front + 1) (front ++ '#' :: cs) = some cs :=
        from?_behind (by decide) front cs
      rw [bodyAt?, hbehind]
      simp only [Option.bind_eq_bind, Option.bind_some]
      cases after? marker (trimStart cs) with
      | some body => rfl
      | none => exact hnext
    · exact hnext

theorem reasonAt?_eq (rest : List Char) : reasonAt? rest = some (reason? rest) := by
  unfold reasonAt? reason?
  cases after? "reason=".toList (trim rest) with
  | none => rfl
  | some value =>
    cases hquoted : after? ['"'] (trim value) with
    | none => simp [hquoted]
    | some quoted =>
      cases hsplit : splitFirst? '"' quoted with
      | none => simp [hquoted, head?_offsetsOf, hsplit]
      | some cut =>
        obtain ⟨reason, back⟩ := cut
        obtain ⟨rfl, -⟩ := splitFirst?_eq_some_iff.1 hsplit
        simp [hquoted, head?_offsetsOf, hsplit, upTo?_append]

/-- **Reading by byte offsets cuts only between characters**, whatever the line. -/
theorem readAt?_eq (line : List Char) : readAt? line = some (read? line) := by
  have hbody : bodyAt? line (offsetsOf '#' 0 line) = some (body? line) := bodyAt?_eq [] line
  unfold readAt? read?
  simp only [hbody, Option.bind_eq_bind, Option.bind_some, Option.pure_def, head?_offsetsOf]
  cases body? line with
  | none => rfl
  | some body =>
    simp only [Option.bind_some]
    cases after? "allow(".toList (trim body) with
    | none => rfl
    | some inside =>
      simp only [Option.bind_some]
      cases hsplit : splitFirst? ')' (trim inside) with
      | none => rfl
      | some cut =>
        obtain ⟨list, rest⟩ := cut
        have htext := (splitFirst?_eq_some_iff.1 hsplit).1
        have hbehind : from? (width list + 1) (list ++ ')' :: rest) = some rest :=
          from?_behind (by decide) list rest
        simp only [htext, Option.map_some, Nat.zero_add, upTo?_append, hbehind, reasonAt?_eq,
          Option.bind_some]
        split <;> rfl

/-- **A directive reads back as it was written**: the rules are the set of the names, and the reason is
the one that was given, if any. Reading by byte offsets does the same on every line, and never cuts
inside a character. -/
theorem read?_written :
    (∀ w : Written, ∃ d, read? w.line = some d ∧ d.rules.Nodup ∧
      (∀ name, name ∈ d.rules ↔ ∃ e ∈ w.entries, e.name = name) ∧
      d.reason = w.reason.map Reason.text) ∧
    ∀ line, readAt? line = some (read? line) := by
  refine ⟨?_, readAt?_eq⟩
  intro w
  have hread : read? w.line = some { rules := names w.list, reason := reason? w.rest } :=
    read?_parts w.code_unmarked w.afterHash_blank w.afterMarker_blank w.not_mem_list
      (names_ne w.entries_ne) w.rest
  have hnames : names w.list = (w.entries.map Entry.name).eraseDups := names_pieces w.entries_ne
  refine ⟨_, hread, ?_, ?_, reason?_rest w⟩
  · rw [hnames]
    exact nodup_eraseDups _
  · intro name
    rw [hnames, List.mem_eraseDups, List.mem_map]

/-- Names and a reason that look like directives themselves, behind code with a comment sign. -/
def nested : Written where
  code := "x = '# rb-lint' #".toList
  afterHash := ['\u3000']
  entries := [{ name := "a#b", after := [' '] }, { before := ['\t'], name := "# rb-lint: allow(\"é" },
    { name := "a#b" }]
  reason := some { after := [' '], text := ") # rb-lint: allow(all)" }
  ending := ['\r']

/-- No name and no reason is taken for a directive of its own, and the name that is written twice is
read once. -/
theorem read?_written_nested :
    String.ofList nested.line =
      "x = '# rb-lint' ##\u3000rb-lint:allow(a#b ,\t# rb-lint: allow(\"é,a#b)" ++
        "reason= \") # rb-lint: allow(all)\"\r" ∧
      ∃ d, read? nested.line = some d ∧ d.rules.Nodup ∧
        (∀ name, name ∈ d.rules ↔ name = "a#b" ∨ name = "# rb-lint: allow(\"é") ∧
        d.reason = some ") # rb-lint: allow(all)" := by
  obtain ⟨hwritten, -⟩ := read?_written
  obtain ⟨d, hd, hnodup, hnames, hreason⟩ := hwritten nested
  have hentries : nested.entries.map Entry.name = ["a#b", "# rb-lint: allow(\"é", "a#b"] := rfl
  refine ⟨by decide, d, hd, hnodup, fun name => ?_, hreason.trans rfl⟩
  rw [hnames, ← List.mem_map, hentries]
  simp only [List.mem_cons, List.not_mem_nil, or_false]
  constructor
  · rintro (h | h | h)
    · exact Or.inl h
    · exact Or.inr h
    · exact Or.inl h
  · rintro (h | h)
    · exact Or.inl h
    · exact Or.inr (Or.inl h)

end Directive

end RubyLint
