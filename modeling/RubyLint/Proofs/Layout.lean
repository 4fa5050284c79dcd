import Mathlib
import RubyLint.Proofs.Marked

/-!
# Lists taken apart at their nodes

A list in a text is its nodes, the gaps between them and what is behind the last one. The commas that
separate the arguments are in the gaps, so a node is removed together with a gap: the one in front of
it, or none when the node opens the list.

* `Layout`: the text of a list, taken apart at its nodes.
* `Layout.separators`: the commas in front of the first argument, between neighbours, and behind the
  last one.
* `Layout.without`: the layout with some nodes removed.
* `Layout.wellSeparated_without_iff`: **removal keeps a list well separated exactly when a comma goes
  with each removed node.**
* `Layout.Lined.without`: comments still end at their line feeds if no node right behind one is removed.
* `Layout.ofList`, `Layout.exists_node`: the layout of a list in a text.
-/

namespace RubyLint

open Text

/-- The text of a list, taken apart at its nodes: a gap in front of each node, and at the end the text
behind the last node. -/
inductive Layout where
  | tail (text : List Char)
  | node (gap : List Char) (node : Tree) (text : List Char) (rest : Layout)

namespace Layout

variable {removed : Tree → Bool} {l : Layout} {seen seen' : Nat}

/-- The text as a whole. -/
def text : Layout → List Char
  | tail text => text
  | node gap _ text rest => gap ++ (text ++ rest.text)

/-- The nodes of the list. -/
def nodes : Layout → List Tree
  | tail _ => []
  | node _ n _ rest => n :: rest.nodes

/-- The arguments are the nodes that are no comments. -/
def arguments (l : Layout) : List Tree :=
  l.nodes.filter (·.kind ≠ .comment)

/-- The commas outside of all nodes, counted for each stretch from one argument to the next, when
`seen` of them came since the last argument. -/
def separators (seen : Nat) : Layout → List Nat
  | tail text => [seen + text.count ',']
  | node gap n _ rest =>
    if n.kind = .comment then separators (seen + gap.count ',') rest
    else (seen + gap.count ',') :: separators 0 rest

/-- There are arguments, with one comma between neighbours, none in front of the first one and none
behind the last one. -/
def WellSeparated (l : Layout) : Prop :=
  l.separators 0 = 0 :: (List.replicate (l.arguments.length - 1) 1 ++ [0])

instance (l : Layout) : Decidable l.WellSeparated :=
  inferInstanceAs (Decidable (_ = _))

/-- The layout without some nodes, none of which opens the list: the gap in front of a node goes with
it. -/
def drop (removed : Tree → Bool) : Layout → Layout
  | tail text => tail text
  | node gap n text rest =>
    if removed n then rest.drop removed else node gap n text (rest.drop removed)

/-- The layout with more text in front. -/
def prepend (gap : List Char) : Layout → Layout
  | tail text => tail (gap ++ text)
  | node gap' n text rest => node (gap ++ gap') n text rest

/-- **The layout without some nodes.** Only of a node that opens the list, the gap stays. -/
def without (removed : Tree → Bool) : Layout → Layout
  | tail text => tail text
  | node gap n text rest =>
    if removed n then (rest.drop removed).prepend gap else node gap n text (rest.drop removed)

/-- A comma goes with each removed node, none of which opens the list. -/
def Severed (removed : Tree → Bool) : Layout → Prop
  | tail _ => True
  | node gap n _ rest => (removed n = true → ',' ∈ gap) ∧ rest.Severed removed

/-- No removed node opens the list, and a comma goes with each. -/
def Detachable (removed : Tree → Bool) : Layout → Prop
  | tail _ => True
  | node _ n _ rest => removed n = false ∧ rest.Severed removed

/-! ## Commas -/

@[simp]
theorem nodes_prepend (gap : List Char) (l : Layout) : (l.prepend gap).nodes = l.nodes := by
  cases l <;> rfl

theorem separators_prepend (gap : List Char) (l : Layout) (seen : Nat) :
    (l.prepend gap).separators seen = l.separators (seen + gap.count ',') := by
  cases l <;> simp [prepend, separators, Nat.add_assoc]

@[simp]
theorem text_prepend (gap : List Char) (l : Layout) : (l.prepend gap).text = gap ++ l.text := by
  cases l <;> simp [prepend, text]

theorem nodes_drop (removed : Tree → Bool) (l : Layout) :
    (l.drop removed).nodes = l.nodes.filter fun n => !removed n := by
  induction l with
  | tail => rfl
  | node gap n text rest ih =>
    rw [drop, nodes, List.filter_cons]
    cases removed n <;> simp [nodes, ih]

/-- What is left are the other nodes. -/
theorem nodes_without (removed : Tree → Bool) (l : Layout) :
    (l.without removed).nodes = l.nodes.filter fun n => !removed n := by
  cases l with
  | tail => rfl
  | node gap n text rest =>
    rw [without, nodes, List.filter_cons]
    cases removed n <;> simp [nodes, nodes_drop]

/-- The separators behind an argument: one in front of each further argument, and none at the end. -/
def Spaced (seen : Nat) (l : Layout) : Prop :=
  l.separators seen = List.replicate l.arguments.length 1 ++ [0]

theorem spaced_tail (text : List Char) : Spaced seen (tail text) ↔ seen + text.count ',' = 0 := by
  simp [Spaced, separators, arguments, nodes]

theorem spaced_comment {gap text : List Char} {n : Tree} (hn : n.kind = .comment) :
    Spaced seen (node gap n text l) ↔ Spaced (seen + gap.count ',') l := by
  simp [Spaced, separators, arguments, nodes, hn]

theorem spaced_argument {gap text : List Char} {n : Tree} (hn : n.kind ≠ .comment) :
    Spaced seen (node gap n text l) ↔ seen + gap.count ',' = 1 ∧ Spaced 0 l := by
  simp [Spaced, separators, arguments, nodes, hn, List.replicate_succ]

/-- A comma that is left over behind an argument stays left over. -/
theorem not_spaced_drop (hremoved : ∀ n, removed n = true → n.kind ≠ .comment)
    (h : Spaced seen l) (hlt : seen < seen') : ¬Spaced seen' (l.drop removed) := by
  -- a removed argument sets the old count back to zero, and leaves the new one ahead of it
  induction l generalizing seen seen' with
  | tail text =>
    rw [spaced_tail] at h
    rw [drop, spaced_tail]
    omega
  | node gap n text rest ih =>
    by_cases hn : n.kind = .comment
    · rw [drop, if_neg fun hr => hremoved n hr hn, spaced_comment hn]
      rw [spaced_comment hn] at h
      exact ih h (by omega)
    · obtain ⟨hone, hrest⟩ := (spaced_argument hn).1 h
      rw [drop]
      split
      · exact ih hrest (by omega)
      · rw [spaced_argument hn]
        omega

/-- **Behind an argument that stays**, removal keeps the separators exactly when a comma goes with each
removed node. -/
theorem spaced_drop_iff (hremoved : ∀ n, removed n = true → n.kind ≠ .comment) (h : Spaced seen l) :
    Spaced seen (l.drop removed) ↔ l.Severed removed := by
  induction l generalizing seen with
  | tail text => exact iff_of_true h trivial
  | node gap n text rest ih =>
    by_cases hn : n.kind = .comment
    · have hkept : ¬removed n = true := fun hr => hremoved n hr hn
      rw [spaced_comment hn] at h
      rw [drop, if_neg hkept, spaced_comment hn, ih h, Severed, and_iff_right fun hr => absurd hr hkept]
    · obtain ⟨hone, hrest⟩ := (spaced_argument hn).1 h
      rw [drop, Severed]
      split
      · rename_i hr
        by_cases hgap : ',' ∈ gap
        · -- the comma in the gap is the only one since the argument before
          obtain rfl : seen = 0 := by
            have := List.count_pos_iff.2 hgap
            omega
          rw [ih hrest, and_iff_right fun _ => hgap]
        · -- it came earlier, and stays
          have hcount := List.count_eq_zero.2 hgap
          exact iff_of_false (not_spaced_drop hremoved hrest (by omega)) fun h => hgap (h.1 hr)
      · rename_i hkept
        rw [spaced_argument hn, and_iff_right hone, ih hrest, and_iff_right fun hr => absurd hr hkept]

/-- The separators of a list of which nothing but comments was read yet. -/
def Led (seen : Nat) (l : Layout) : Prop :=
  l.separators seen = 0 :: (List.replicate (l.arguments.length - 1) 1 ++ [0])

theorem not_led_tail (text : List Char) : ¬Led seen (tail text) := by
  simp [Led, separators]

theorem led_comment {gap text : List Char} {n : Tree} (hn : n.kind = .comment) :
    Led seen (node gap n text l) ↔ Led (seen + gap.count ',') l := by
  simp [Led, separators, arguments, nodes, hn]

theorem led_argument {gap text : List Char} {n : Tree} (hn : n.kind ≠ .comment) :
    Led seen (node gap n text l) ↔ seen + gap.count ',' = 0 ∧ Spaced 0 l := by
  simp [Led, Spaced, separators, arguments, nodes, hn]

/-- When the first argument is removed, the comma behind it comes to stand in front of the first
argument that stays. -/
theorem not_led_drop (hremoved : ∀ n, removed n = true → n.kind ≠ .comment)
    (h : Spaced seen l) (hle : seen ≤ seen') : ¬Led seen' (l.drop removed) := by
  -- at the next argument the old count is one, and the new one is never behind it
  induction l generalizing seen seen' with
  | tail text => exact not_led_tail text
  | node gap n text rest ih =>
    by_cases hn : n.kind = .comment
    · rw [drop, if_neg fun hr => hremoved n hr hn, led_comment hn]
      rw [spaced_comment hn] at h
      exact ih h (by omega)
    · obtain ⟨hone, hrest⟩ := (spaced_argument hn).1 h
      rw [drop]
      split
      · exact ih hrest (by omega)
      · rw [led_argument hn]
        omega

/-- **Behind comments that open the list**, removal keeps the separators exactly when a comma goes with
each removed node; there is none to go with the first argument. -/
theorem led_drop_iff (hremoved : ∀ n, removed n = true → n.kind ≠ .comment) (h : Led seen l) :
    Led seen (l.drop removed) ↔ l.Severed removed := by
  induction l generalizing seen with
  | tail text => exact absurd h (not_led_tail text)
  | node gap n text rest ih =>
    by_cases hn : n.kind = .comment
    · have hkept : ¬removed n = true := fun hr => hremoved n hr hn
      rw [led_comment hn] at h
      rw [drop, if_neg hkept, led_comment hn, ih h, Severed, and_iff_right fun hr => absurd hr hkept]
    · obtain ⟨hnone, hrest⟩ := (led_argument hn).1 h
      have hgap : ',' ∉ gap := List.count_eq_zero.1 (by omega)
      rw [drop, Severed]
      split
      · rename_i hr
        exact iff_of_false (not_led_drop hremoved hrest (Nat.zero_le _)) fun h => hgap (h.1 hr)
      · rename_i hkept
        rw [led_argument hn, and_iff_right hnone, spaced_drop_iff hremoved hrest,
          and_iff_right fun hr => absurd hr hkept]

/-- **Removal keeps a list well separated exactly when a comma goes with each removed node.** -/
theorem wellSeparated_without_iff (hremoved : ∀ n, removed n = true → n.kind ≠ .comment)
    (h : l.WellSeparated) : (l.without removed).WellSeparated ↔ l.Detachable removed := by
  change Led 0 l at h
  change Led 0 (l.without removed) ↔ _
  cases l with
  | tail text => exact absurd h (not_led_tail text)
  | node gap n text rest =>
    rw [without, Detachable]
    split
    · -- the comma behind the first argument stays
      rename_i hr
      obtain ⟨-, hrest⟩ := (led_argument (hremoved n hr)).1 h
      refine iff_of_false ?_ fun hcut => absurd hr (Bool.eq_false_iff.1 hcut.1)
      unfold Led
      rw [separators_prepend, arguments, nodes_prepend]
      exact not_led_drop hremoved hrest (Nat.zero_le _)
    · rename_i hkept
      have hdrop := led_drop_iff hremoved h
      rw [drop, if_neg hkept, Severed, and_iff_right fun hr => absurd hr hkept] at hdrop
      rw [hdrop, and_iff_right (Bool.eq_false_iff.2 hkept)]

theorem length_separators (seen : Nat) (l : Layout) :
    (l.separators seen).length = l.arguments.length + 1 := by
  induction l generalizing seen with
  | tail => rfl
  | node gap n text rest ih =>
    by_cases hn : n.kind = .comment <;> simp_all [separators, arguments, nodes]

theorem eq_replicate_of_sum_le {cs : List Nat} (hpos : ∀ c ∈ cs, 1 ≤ c) (hsum : cs.sum ≤ cs.length) :
    cs = List.replicate cs.length 1 := by
  induction cs with
  | nil => rfl
  | cons c cs ih =>
    obtain ⟨hc, hcs⟩ := List.forall_mem_cons.1 hpos
    have hle := List.length_le_sum_of_one_le cs hcs
    rw [List.sum_cons, List.length_cons] at hsum
    obtain rfl : c = 1 := by omega
    rw [List.length_cons, List.replicate_succ, ← ih hcs (by omega)]

/-- **A list is well separated by its number of commas**, one less than that of its arguments, if there
is one between any two neighbours. -/
theorem wellSeparated_of_count (hcount : (l.separators 0).sum + 1 = l.arguments.length)
    (hbetween : ∀ c ∈ (l.separators 0).tail.dropLast, 1 ≤ c) : l.WellSeparated := by
  have hlength := l.length_separators 0
  unfold WellSeparated
  obtain ⟨first, middle, last, hcs⟩ : ∃ first middle last,
      l.separators 0 = first :: (middle ++ [last]) := by
    cases hcs : l.separators 0 with
    | nil => rw [hcs] at hlength; cases hlength
    | cons first cs =>
      rw [hcs, List.length_cons] at hlength
      have hne : cs ≠ [] := List.ne_nil_of_length_pos (by omega)
      exact ⟨first, cs.dropLast, cs.getLast hne, by rw [List.dropLast_concat_getLast]⟩
  rw [hcs] at hlength hcount hbetween ⊢
  rw [List.tail_cons, List.dropLast_concat] at hbetween
  simp only [List.length_cons, List.length_append, List.length_nil, List.sum_cons, List.sum_append,
    List.sum_nil] at hlength hcount
  -- the stretches between neighbours use up all commas
  have hle := List.length_le_sum_of_one_le middle hbetween
  obtain ⟨rfl, rfl⟩ : first = 0 ∧ last = 0 := by omega
  have hmiddle : l.arguments.length - 1 = middle.length := by omega
  rw [hmiddle, ← eq_replicate_of_sum_le hbetween (by omega)]

/-! ## Comments -/

/-- The text in front of the first node. -/
def gap : Layout → List Char
  | tail text => text
  | node gap _ _ _ => gap

/-- Every comment ends at a line feed, so nothing of what follows belongs to it. -/
def Lined : Layout → Prop
  | tail _ => True
  | node _ n _ rest => (n.kind = .comment → rest.gap.head? = some '\n') ∧ rest.Lined

theorem lined_prepend {gap : List Char} : (l.prepend gap).Lined ↔ l.Lined := by
  cases l <;> rfl

/-- No removed node stands right behind a comment. -/
def BehindNoComment (removed : Tree → Bool) (l : Layout) : Prop :=
  ∀ a b, [a, b] <:+: l.nodes → a.kind = .comment → removed b = false

theorem BehindNoComment.rest {gap text : List Char} {n : Tree}
    (h : (node gap n text l).BehindNoComment removed) : l.BehindNoComment removed :=
  fun a b hab => h a b (List.infix_cons hab)

/-- Comments keep the line feed behind them, unless the next node is removed. -/
theorem Lined.drop (h : l.Lined) (hbehind : l.BehindNoComment removed) : (l.drop removed).Lined := by
  induction l with
  | tail text => trivial
  | node gap n text rest ih =>
    obtain ⟨hline, hrest⟩ := h
    have hdrop := ih hrest hbehind.rest
    rw [Layout.drop]
    split
    · exact hdrop
    · refine ⟨fun hn => ?_, hdrop⟩
      cases rest with
      | tail text => exact hline hn
      | node gap' m text' rest =>
        have hkept : removed m = false :=
          hbehind n m (List.IsPrefix.isInfix ⟨rest.nodes, rfl⟩) hn
        rw [Layout.drop, if_neg (Bool.eq_false_iff.1 hkept)]
        exact hline hn

theorem Lined.without (h : l.Lined) (hbehind : l.BehindNoComment removed) : (l.without removed).Lined := by
  cases l with
  | tail text => trivial
  | node gap n text rest =>
    rw [Layout.without]
    split
    · exact lined_prepend.2 (h.2.drop hbehind.rest)
    · rename_i hkept
      have hdrop := h.drop hbehind
      rw [Layout.drop, if_neg hkept] at hdrop
      exact hdrop

/-! ## The layout of a list in a text -/

/-- The layout of nodes that stand one after the other, from `cursor` on up to `stop`. -/
def ofNodes (source : Source) (stop : Nat) : Nat → List Tree → Layout
  | cursor, [] => tail (source.text ⟨cursor, stop⟩).toList
  | cursor, t :: ts =>
    node (source.text ⟨cursor, t.span.start⟩).toList t (source.text t.span).toList
      (ofNodes source stop t.span.stop ts)

/-- The layout of the constructs in the range of a node. -/
def ofList (source : Source) (list : Tree) : Layout :=
  ofNodes source list.span.stop list.span.start list.namedChildren

theorem nodes_ofNodes (source : Source) (stop cursor : Nat) (ts : List Tree) :
    (ofNodes source stop cursor ts).nodes = ts := by
  induction ts generalizing cursor with
  | nil => rfl
  | cons t ts ih => rw [ofNodes, nodes, ih]

/-- Nodes that stand one after the other in a text, from `cursor` on up to `stop`. -/
def InOrder (chars : List Char) (stop : Nat) : Nat → List Tree → Prop
  | cursor, [] => cursor ≤ stop
  | cursor, t :: ts =>
    cursor ≤ t.span.start ∧ t.span.Fits chars ∧ InOrder chars stop t.span.stop ts

theorem inOrder_of_pairwise {chars : List Char} {stop cursor : Nat} {ts : List Tree}
    (hle : cursor ≤ stop) (hfits : ∀ t ∈ ts, t.span.Fits chars)
    (hwithin : ∀ t ∈ ts, cursor ≤ t.span.start ∧ t.span.stop ≤ stop)
    (hordered : ts.Pairwise fun a b => a.span.stop ≤ b.span.start) :
    InOrder chars stop cursor ts := by
  induction ts generalizing cursor with
  | nil => exact hle
  | cons t ts ih =>
    obtain ⟨hnext, hordered⟩ := List.pairwise_cons.1 hordered
    obtain ⟨⟨hstart, hstop⟩, hwithin⟩ := List.forall_mem_cons.1 hwithin
    obtain ⟨ht, hfits⟩ := List.forall_mem_cons.1 hfits
    exact ⟨hstart, ht, ih hstop hfits (fun u hu => ⟨hnext u hu, (hwithin u hu).2⟩) hordered⟩

/-- The constructs in the range of a node of a well placed tree. -/
theorem inOrder_namedChildren {chars : List Char} {root list : Tree} (h : root.WellPlaced chars)
    (hlist : list ∈ root.nodes) :
    InOrder chars list.span.stop list.span.start list.namedChildren := by
  have hchild : ∀ t ∈ list.namedChildren, t ∈ list.children := fun t ht => List.mem_of_mem_filter ht
  refine inOrder_of_pairwise (h.fits list hlist).start_le_stop ?_ ?_ (h.ordered_named hlist)
  · intro t ht
    exact h.fits t (Tree.mem_nodes_of_child hlist (hchild t ht))
  · intro t ht
    have hwithin := h.nested list hlist t (hchild t ht)
    exact ⟨hwithin.start_le, hwithin.stop_le⟩

/-- The text of a range that starts behind `front`. -/
theorem exists_text {source : Source} {front rest : List Char} {stop : Nat}
    (hchars : source.chars = front ++ rest) (hle : width front ≤ stop)
    (hstop : isBoundary stop source.chars = true) :
    ∃ rest', rest = (source.text ⟨width front, stop⟩).toList ++ rest' ∧
      width front + width (source.text ⟨width front, stop⟩).toList = stop := by
  obtain ⟨l, k, r, hsplit, hl, hk⟩ := exists_split (hchars ▸ isBoundary_width front rest) hstop hle
  have hslice : slice? (width front) stop source.chars = some k :=
    slice?_eq_some_iff.2 ⟨l, r, hsplit, hl, hk⟩
  have htext : (source.text ⟨width front, stop⟩).toList = k := by
    unfold Source.text
    rw [hslice, Option.getD_some, String.toList_ofList]
  have hrest : from? (width front) source.chars = some rest := hchars ▸ from?_append front rest
  have hback : from? (width front) source.chars = some (k ++ r) :=
    from?_eq_some_iff.2 ⟨l, hsplit, hl⟩
  rw [htext, ← hl, hk]
  exact ⟨r, Option.some.inj (hrest.symm.trans hback), rfl⟩

/-- The gap in front of a node and the text of the node. -/
theorem exists_node {source : Source} {front rest : List Char} {t : Tree}
    (hchars : source.chars = front ++ rest) (hle : width front ≤ t.span.start)
    (hfits : t.span.Fits source.chars) :
    ∃ rest', rest = (source.text ⟨width front, t.span.start⟩).toList ++
        ((source.text t.span).toList ++ rest') ∧
      width front + width (source.text ⟨width front, t.span.start⟩).toList = t.span.start ∧
      t.span.start + width (source.text t.span).toList = t.span.stop := by
  obtain ⟨mid, hmid, hstart⟩ := exists_text hchars hle hfits.start_boundary
  generalize (source.text ⟨width front, t.span.start⟩).toList = gap at hmid hstart ⊢
  have hfront : width (front ++ gap) = t.span.start := by rw [width_append, hstart]
  rw [hmid, ← List.append_assoc] at hchars
  obtain ⟨rest', hrest, hstop⟩ :=
    exists_text hchars (hfront.trans_le hfits.start_le_stop) hfits.stop_boundary
  rw [hfront] at hrest hstop
  exact ⟨rest', by rw [hmid, hrest], hstart, hstop⟩

end Layout

end RubyLint
