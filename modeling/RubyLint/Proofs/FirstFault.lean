import RubyLint.Parse
import RubyLint.Proofs.Positions
import RubyLint.Proofs.Walk

/-!
# The reported fault is the first one

The search for a fault enters only children that report one. If all nodes report truly, nothing is
lost that way: a child that reports no fault has none, and one that is entered has one. So the search
agrees with a plain look through all nodes in pre-order, tokens included, and a refused tree always has
a fault to show.

* `Tree.ReportsFaults`: each node tells whether a fault is at or below it.
* `Tree.firstFault?_eq_find?` (by induction on the tree): **the pruned search finds the first fault.**
* `Source.bytePosition_front`: the position of an offset, counted from the text in front of it.
* `ParsedFile.parse_first_fault`: **a text is refused exactly when its tree has a fault, at the position
  of the first one.**
-/

namespace RubyLint

namespace Tree

/-- **All nodes report truly**: a node reports an error exactly when it marks a fault or a node below it
does. -/
def ReportsFaults (t : Tree) : Prop :=
  ∀ n ∈ t.nodes, n.info.hasError = true ↔ ∃ m ∈ n.nodes, m.isFault = true

instance (t : Tree) : Decidable t.ReportsFaults :=
  inferInstanceAs (Decidable
    (∀ n ∈ t.nodes, n.info.hasError = true ↔ ∃ m ∈ n.nodes, m.isFault = true))

variable {t n : Tree}

theorem ReportsFaults.top (h : t.ReportsFaults) :
    t.info.hasError = true ↔ ∃ m ∈ t.nodes, m.isFault = true :=
  h t t.mem_nodes_self

theorem ReportsFaults.child (h : t.ReportsFaults) (hn : n ∈ t.children) : n.ReportsFaults := by
  intro m hm
  exact h m (nodes_subset (mem_nodes_of_child t.mem_nodes_self hn) hm)

/-- A node that reports no fault is passed over at no loss. -/
theorem ReportsFaults.find?_eq_none (h : t.ReportsFaults) (ht : ¬ t.info.hasError = true) :
    t.nodes.find? (·.isFault) = none := by
  rw [List.find?_eq_none]
  intro m hm hfault
  exact ht (h.top.2 ⟨m, hm, hfault⟩)

mutual
/-- **The pruned search finds the first fault**, in pre-order over all nodes. -/
theorem firstFault?_eq_find? :
    ∀ {t : Tree}, t.ReportsFaults → t.firstFault? = t.nodes.find? (·.isFault)
  | node info children, h => by
    rw [firstFault?, nodes]
    by_cases hfault : (node info children).isFault = true
    · rw [if_pos hfault, List.find?_cons_of_pos hfault]
    · rw [if_neg hfault, List.find?_cons_of_neg hfault]
      exact firstFaultAll?_eq_find? fun t ht => h.child ht
theorem firstFaultAll?_eq_find? :
    ∀ {ts : List Tree}, (∀ t ∈ ts, t.ReportsFaults) →
      firstFaultAll? ts = (nodesAll ts).find? (·.isFault)
  | [], _ => rfl
  | t :: ts, h => by
    have ht : t.ReportsFaults := h t List.mem_cons_self
    have hts := firstFaultAll?_eq_find? fun u hu => h u (List.mem_cons_of_mem t hu)
    rw [firstFaultAll?, nodesAll, List.find?_append, hts]
    -- a child that is passed over adds nothing, and an entered one is searched to its end
    by_cases hreports : t.info.hasError = true
    · rw [if_pos hreports, firstFault?_eq_find? ht]
    · rw [if_neg hreports, ht.find?_eq_none hreports, Option.none_or]
end

/-- A search that is made finds something. -/
theorem ReportsFaults.exists_firstFault? (h : t.ReportsFaults) (ht : t.info.hasError = true) :
    ∃ n, t.firstFault? = some n := by
  rw [firstFault?_eq_find? h, ← Option.isSome_iff_exists, List.find?_isSome]
  exact h.top.1 ht

end Tree

/-- The position of an offset in bytes, counted from the text in front of it: one more than its line
feeds, and one more than the bytes behind the last of them. -/
theorem Source.bytePosition_front {s : Source} {front back : List Char}
    (h : s.chars = front ++ back) :
    s.bytePosition (Text.width front) =
      (front.count '\n' + 1, Text.width (front.rtakeWhile (· ≠ '\n')) + 1) := by
  obtain ⟨above, hsplit, habove⟩ := Text.exists_lineStart front
  have hline := Text.newline_not_mem_rtakeWhile front
  have hindex : Text.lineIndex s.starts (Text.width front) = front.count '\n' := by
    rw [s.starts_eq, h, Text.lineIndex_append]
  generalize front.rtakeWhile (· ≠ '\n') = line at hsplit hline ⊢
  subst hsplit
  have hcount : (above ++ line).count '\n' = above.count '\n' := by
    rw [List.count_append, List.count_eq_zero.2 hline, Nat.add_zero]
  have hstart : s.starts.getD (above.count '\n') 0 = Text.width above := by
    rw [Array.getD_eq_getD_getElem?, starts_at (by rw [h, List.append_assoc]) habove]
    rfl
  unfold bytePosition
  simp only [hindex, hcount, hstart]
  rw [Text.width_append, Nat.add_sub_cancel_left]

namespace ParsedFile

variable {g : Grammar} {s : Source} {root : Tree}

/-- A text with a tree is refused exactly when the top of the tree reports a fault. -/
theorem parse_eq_error_iff (hroot : g s.content = some root) (e : SyntaxError) :
    parse g s = .error e ↔ root.info.hasError = true ∧
      e = .fault (s.bytePosition (root.firstFault?.getD root).span.start).1
        (s.bytePosition (root.firstFault?.getD root).span.start).2 := by
  unfold parse SyntaxError.ofTree?
  rw [hroot]
  by_cases herror : root.info.hasError = true
  · simp only [herror, if_true, true_and, Except.error.injEq]
    exact eq_comm
  · simp only [if_neg herror]
    exact ⟨fun h => (nomatch h), fun h => absurd h.1 herror⟩

/-- **A text is refused exactly when its tree has a fault, at the position of the first one** in
pre-order over all nodes; the search for it is never in vain. The position counts the line feeds in
front of the fault and the bytes behind the last of them. -/
theorem parse_first_fault (g : Grammar) (s : Source) (root : Tree)
    (hroot : g s.content = some root) (hreports : root.ReportsFaults) :
    ((∃ e, parse g s = .error e) ↔ ∃ n ∈ root.nodes, n.isFault = true) ∧
    (∀ e, parse g s = .error e ↔ ∃ n, root.nodes.find? (·.isFault) = some n ∧
      e = .fault (s.bytePosition n.span.start).1 (s.bytePosition n.span.start).2) ∧
    (root.info.hasError = true → ∃ n, root.firstFault? = some n) ∧
    ∀ n front back, root.nodes.find? (·.isFault) = some n → s.chars = front ++ back →
      n.span.start = Text.width front → parse g s =
        .error (.fault (front.count '\n' + 1) (Text.width (front.rtakeWhile (· ≠ '\n')) + 1)) := by
  have hplace : ∀ e, parse g s = .error e ↔ ∃ n, root.nodes.find? (·.isFault) = some n ∧
      e = .fault (s.bytePosition n.span.start).1 (s.bytePosition n.span.start).2 := by
    intro e
    rw [parse_eq_error_iff hroot, ← Tree.firstFault?_eq_find? hreports]
    constructor
    · rintro ⟨herror, he⟩
      -- the top is never reported for want of a fault
      obtain ⟨n, hn⟩ := hreports.exists_firstFault? herror
      rw [hn, Option.getD_some] at he
      exact ⟨n, hn, he⟩
    · rintro ⟨n, hn, he⟩
      rw [hn, Option.getD_some]
      rw [Tree.firstFault?_eq_find? hreports] at hn
      exact ⟨hreports.top.2 ⟨n, List.mem_of_find?_eq_some hn, List.find?_some hn⟩, he⟩
  refine ⟨?_, hplace, fun herror => hreports.exists_firstFault? herror, ?_⟩
  · rw [← hreports.top]
    constructor
    · rintro ⟨e, he⟩
      exact ((parse_eq_error_iff hroot e).1 he).1
    · intro herror
      exact ⟨_, (parse_eq_error_iff hroot _).2 ⟨herror, rfl⟩⟩
  · intro n front back hn hchars hstart
    rw [hplace]
    refine ⟨n, hn, ?_⟩
    rw [hstart, Source.bytePosition_front hchars]

/-- A call without its closing parenthesis, behind a line with a character of two bytes. -/
def openCall : String := "é = 1\nfoo(\n"

/-- The token that is missing. -/
def missingParen : Tree :=
  .node ⟨.other ")", ⟨11, 11⟩, false, false, true, true, none⟩ []

/-- The tree of this text: the missing token is not named and stands below named nodes, and a second
fault follows it. -/
def openCallTree : Tree :=
  .node { kind := .other "program", span := ⟨0, 12⟩, hasError := true }
    [.node { kind := .assignment, span := ⟨0, 6⟩ }
        [.node { kind := .identifier, span := ⟨0, 2⟩, field := some .left } [],
          .node { kind := .other "=", span := ⟨3, 4⟩, named := false } [],
          .node { kind := .other "integer", span := ⟨5, 6⟩, field := some .right } []],
      .node { kind := .call, span := ⟨7, 11⟩, hasError := true }
        [.node { kind := .identifier, span := ⟨7, 10⟩, field := some .method } [],
          .node { kind := .other "argument_list", span := ⟨10, 11⟩, hasError := true }
            [.node { kind := .other "(", span := ⟨10, 11⟩, named := false } [], missingParen]],
      .node { kind := .other "ERROR", span := ⟨11, 12⟩, isError := true, hasError := true } []]

/-- The missing parenthesis is reported, at the end of the second line. -/
theorem parse_first_fault_openCall :
    openCallTree.ReportsFaults ∧
      parse (fun _ => some openCallTree) (.ofString openCall) = .error (.fault 2 5) := by
  have hreports : openCallTree.ReportsFaults := by decide
  have hparse := parse_first_fault (fun _ => some openCallTree) (.ofString openCall) openCallTree
    rfl hreports
  exact ⟨hreports, hparse.2.2.2 missingParen "é = 1\nfoo(".toList ['\n'] rfl (by decide) (by decide)⟩

end ParsedFile

end RubyLint
