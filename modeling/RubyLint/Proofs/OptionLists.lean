import Mathlib
import RubyLint.Proofs.Layout
import RubyLint.Proofs.Splice

/-!
# Removing options from a list

An option is removed together with the text between it and the node in front of it, so that the
separator goes with it. Whether the rest is still a list with one comma between neighbours depends on
where the commas are: there is none in front of an option that opens its list, and a comment between
the comma and the option keeps the comma.

* `Camelize.optionLists`, `Camelize.removals`: the lists of a call, and the fixes of one list.
* `Camelize.mem_check_iff`: the violations of a tree are those of its lists.
* `Camelize.woven_layout`: the edits of a list beside the layout that they leave.
* `Camelize.applyFixes_removals`: **what the fixes of a list leave is well separated exactly when each
  of them takes a comma with it.**
-/

namespace RubyLint

open Text Edit

namespace Camelize

variable {ctx : FileContext} {root : Tree} {previous : Option Nat} {t : Tree} {ts : List Tree}

/-- The violations of the options of one list. -/
def removals (ctx : FileContext) (list : Tree) : List Violation :=
  ((withPrevious none list.namedChildren).filter fun (_, t) => isCamelize ctx.source t).map
    fun (previous, t) => violation ctx previous t

/-- The edit that removes an option. -/
def removal (ctx : FileContext) (previous : Option Nat) (t : Tree) : Edit :=
  ⟨ctx.location (previous.getD t.span.start) t.span.stop, ""⟩

/-- The edits that remove options among nodes side by side, where `previous` is the end of the node in
front of them. -/
def removalEdits (ctx : FileContext) (previous : Option Nat) (ts : List Tree) : List Edit :=
  ((withPrevious previous ts).filter fun (_, t) => isCamelize ctx.source t).map
    fun (previous, t) => removal ctx previous t

theorem removalEdits_removed (h : isCamelize ctx.source t = true) :
    removalEdits ctx previous (t :: ts) =
      removal ctx previous t :: removalEdits ctx (some t.span.stop) ts := by
  unfold removalEdits
  rw [withPrevious, List.filter_cons, if_pos h]
  rfl

theorem removalEdits_kept (h : ¬isCamelize ctx.source t = true) :
    removalEdits ctx previous (t :: ts) = removalEdits ctx (some t.span.stop) ts := by
  unfold removalEdits
  rw [withPrevious, List.filter_cons, if_neg h]

theorem filterMap_edit_removals (ctx : FileContext) (list : Tree) :
    (removals ctx list).filterMap (·.edit?) = removalEdits ctx none list.namedChildren := by
  unfold removals removalEdits
  rw [List.filterMap_map, ← List.filterMap_eq_map]
  rfl

/-- The lists that can hold options of a call: its arguments, and the hashes among them. -/
def optionLists (call : Call) : List Tree :=
  match call.node.child? .arguments with
  | none => []
  | some arguments => arguments :: arguments.namedChildren.filter (·.kind = .hash)

theorem kind_of_isCamelize {source : Source} (h : isCamelize source t = true) : t.kind = .pair := by
  unfold isCamelize at h
  rw [Bool.and_eq_true, decide_eq_true_eq] at h
  exact h.1

/-- The options of a call that are to be removed stand in its lists. -/
theorem mem_options_iff {call : Call} (h : isCamelize ctx.source t = true) :
    (previous, t) ∈ options call.argumentList ↔
      ∃ list ∈ optionLists call, (previous, t) ∈ withPrevious none list.namedChildren := by
  have hpair := kind_of_isCamelize h
  unfold optionLists Call.argumentList options
  cases call.node.child? .arguments with
  | none => simp [withPrevious]
  | some arguments =>
    rw [Option.map_some, Option.getD_some]
    simp only [List.mem_flatMap, List.mem_cons, exists_eq_or_imp, List.mem_filter]
    constructor
    · rintro ⟨⟨before, a⟩, ha, hmem⟩
      have hchild : a ∈ arguments.namedChildren :=
        map_snd_withPrevious none arguments.namedChildren ▸ List.mem_map_of_mem ha
      split at hmem
      · cases List.mem_singleton.1 hmem
        exact Or.inl ha
      · rename_i hhash
        exact Or.inr ⟨a, ⟨hchild, by simpa using hhash⟩, List.mem_of_mem_filter hmem⟩
      · cases hmem
    · rintro (hmem | ⟨a, ⟨hchild, hhash⟩, hmem⟩)
      · exact ⟨(previous, t), hmem, by simp [hpair]⟩
      · rw [← map_snd_withPrevious none arguments.namedChildren] at hchild
        obtain ⟨⟨before, _⟩, ha, rfl⟩ := List.mem_map.1 hchild
        refine ⟨(before, _), ha, ?_⟩
        rw [decide_eq_true_eq] at hhash
        simp only [hhash, List.mem_filter]
        exact ⟨hmem, by simp [hpair]⟩

/-- **The violations of a tree are those of its lists.** -/
theorem mem_check_iff {v : Violation} : v ∈ check ctx root ↔
    ∃ call ∈ pattern.search ctx.source root, ∃ list ∈ optionLists call, v ∈ removals ctx list := by
  unfold check removals
  simp only [List.mem_map, List.mem_filter, List.mem_flatMap]
  constructor
  · rintro ⟨⟨previous, t⟩, ⟨⟨call, hcall, hoption⟩, ht⟩, rfl⟩
    obtain ⟨list, hlist, hmem⟩ := (mem_options_iff ht).1 hoption
    exact ⟨call, hcall, list, hlist, (previous, t), ⟨hmem, ht⟩, rfl⟩
  · rintro ⟨call, hcall, list, hlist, ⟨previous, t⟩, ⟨hmem, ht⟩, rfl⟩
    exact ⟨(previous, t), ⟨⟨call, hcall, (mem_options_iff ht).2 ⟨list, hlist, hmem⟩⟩, ht⟩, rfl⟩

/-- What is between the edits of a list is kept. -/
theorem woven_removal {es : List Edit} {cursor : Nat} {old new : List Char} (kept gone : List Char)
    (hstart : cursor + width kept = previous.getD t.span.start)
    (hstop : cursor + width kept + width gone = t.span.stop) (h : Woven t.span.stop es old new) :
    Woven cursor (removal ctx previous t :: es) (kept ++ (gone ++ old)) (kept ++ new) := by
  have hlength : width gone = (removal ctx previous t).location.length := by
    change _ = t.span.stop - previous.getD t.span.start
    omega
  have hend : (removal ctx previous t).stop = t.span.stop := by
    rw [stop_eq, ← hlength, ← hstop, hstart]
    rfl
  exact .edit kept gone hstart hlength (hend ▸ h)

/-- **The edits of nodes, beside the layout that they leave**: behind another node, and at the start of
a list. -/
theorem woven_layout {front rest : List Char} {stop : Nat}
    (hchars : ctx.source.chars = front ++ rest)
    (hstop : isBoundary stop ctx.source.chars = true)
    (horder : Layout.InOrder ctx.source.chars stop (width front) ts) :
    ∃ back, rest = (Layout.ofNodes ctx.source stop (width front) ts).text ++ back ∧
      width front + width (Layout.ofNodes ctx.source stop (width front) ts).text = stop ∧
      Woven (width front) (removalEdits ctx (some (width front)) ts) rest
        (((Layout.ofNodes ctx.source stop (width front) ts).drop (isCamelize ctx.source)).text ++
          back) ∧
      Woven (width front) (removalEdits ctx none ts) rest
        (((Layout.ofNodes ctx.source stop (width front) ts).without (isCamelize ctx.source)).text ++
          back) := by
  induction ts generalizing front rest with
  | nil =>
    obtain ⟨back, hback, hwidth⟩ := Layout.exists_text hchars horder hstop
    exact ⟨back, hback, hwidth, hback ▸ .done _ _, hback ▸ .done _ _⟩
  | cons t ts ih =>
    obtain ⟨hstart, hfits, horder⟩ := horder
    obtain ⟨rest', hrest, hgap, htext⟩ := Layout.exists_node hchars hstart hfits
    rw [Layout.ofNodes]
    generalize (ctx.source.text ⟨width front, t.span.start⟩).toList = gap at *
    generalize (ctx.source.text t.span).toList = text at *
    have hwidth : width (front ++ (gap ++ text)) = t.span.stop := by
      rw [width_append, width_append]; omega
    -- what is behind this node is behind a node in any case
    have hnext : ctx.source.chars = front ++ (gap ++ text) ++ rest' := by
      rw [hchars, hrest]; simp
    obtain ⟨back, hback, hend, hwoven, -⟩ := ih hnext (hwidth ▸ horder)
    rw [hwidth] at hback hend hwoven
    refine ⟨back, ?_, ?_, ?_⟩
    · rw [hrest, hback, Layout.text]; simp
    · rw [Layout.text, width_append, width_append]; omega
    · rw [hrest, Layout.drop, Layout.without]
      by_cases hr : isCamelize ctx.source t = true
      · rw [removalEdits_removed hr, removalEdits_removed hr, if_pos hr, if_pos hr,
          Layout.text_prepend, List.append_assoc gap]
        constructor
        · rw [← List.append_assoc]
          exact woven_removal [] (gap ++ text) rfl (by rw [width_append, width]; omega) hwoven
        · exact woven_removal gap text hgap (by omega) hwoven
      · have hcopy : Woven (width front) _ _ _ := Woven.copy (gap ++ text)
          (by rw [width_append, ← Nat.add_assoc, hgap, htext]; exact hwoven)
        rw [removalEdits_kept hr, removalEdits_kept hr, if_neg hr, if_neg hr, Layout.text]
        simp only [List.append_assoc] at hcopy ⊢
        exact ⟨hcopy, hcopy⟩

/-- A range without width has no text. -/
theorem text_empty (source : Source) (n : Nat) : (source.text ⟨n, n⟩).toList = [] := by
  unfold Source.text slice?
  rw [if_pos (Nat.le_refl n), Nat.sub_self, String.toList_ofList]
  cases from? n source.chars with
  | none => rfl
  | some cs => rw [Option.bind_some, upTo?_zero, Option.getD_some]

/-- The text that a fix removes in front of its option has a comma. -/
def TakesComma (source : Source) (previous : Option Nat) (t : Tree) : Prop :=
  ',' ∈ (source.text ⟨previous.getD t.span.start, t.span.start⟩).toList

instance (source : Source) (previous : Option Nat) (t : Tree) :
    Decidable (TakesComma source previous t) :=
  inferInstanceAs (Decidable (_ ∈ _))

theorem severed_ofNodes_iff {source : Source} {stop cursor : Nat} :
    (Layout.ofNodes source stop cursor ts).Severed (isCamelize source) ↔
      ∀ o ∈ withPrevious (some cursor) ts, isCamelize source o.2 = true →
        TakesComma source o.1 o.2 := by
  induction ts generalizing cursor with
  | nil => exact iff_of_true trivial (List.forall_mem_nil _)
  | cons t ts ih =>
    rw [Layout.ofNodes, Layout.Severed, withPrevious, List.forall_mem_cons, ih]
    rfl

theorem detachable_ofNodes_iff {source : Source} {stop cursor : Nat} :
    (Layout.ofNodes source stop cursor ts).Detachable (isCamelize source) ↔
      ∀ o ∈ withPrevious none ts, isCamelize source o.2 = true → TakesComma source o.1 o.2 := by
  cases ts with
  | nil => exact iff_of_true trivial (List.forall_mem_nil _)
  | cons t ts =>
    have hnone : ¬TakesComma source none t := by
      unfold TakesComma
      rw [Option.getD_none, text_empty]
      exact List.not_mem_nil
    rw [Layout.ofNodes, Layout.Detachable, withPrevious, List.forall_mem_cons, severed_ofNodes_iff,
      ← Bool.not_eq_true]
    refine and_congr_left fun _ => ⟨fun hkept hr => absurd hr hkept, fun h hr => hnone (h hr)⟩

theorem mem_nodes_of_mem_optionLists {call : Call} {list : Tree} (hcall : call.node ∈ root.nodes)
    (hlist : list ∈ optionLists call) : list ∈ root.nodes := by
  unfold optionLists at hlist
  split at hlist
  · cases hlist
  · rename_i arguments harguments
    have hmem := Tree.mem_nodes_of_child hcall (List.mem_of_find?_eq_some harguments)
    rcases List.mem_cons.1 hlist with rfl | hhash
    · exact hmem
    · exact Tree.mem_nodes_of_child hmem (List.mem_of_mem_filter (List.mem_of_mem_filter hhash))

/-- What the fixes of a list leave of it. -/
def remainder (ctx : FileContext) (list : Tree) : Layout :=
  (Layout.ofList ctx.source list).without (isCamelize ctx.source)

/-- **The fixes of one list.** In a list of a `field` or `argument` call with a comma between any two
neighbours, and one comma less than it has arguments, all options are removed without conflict, and
nothing outside the list changes. What is left is well separated exactly when each fix takes a comma
with it, from between its option and the node in front. So it is not when an option opens the list,
nor when a comment parts an option from the comma in front of it. Comments that end at a line feed
still do, if no option stands right behind one. -/
theorem applyFixes_removals {call : Call} {list : Tree} (hroot : root.WellPlaced ctx.source.chars)
    (hcall : call ∈ pattern.search ctx.source root) (hlist : list ∈ optionLists call)
    (hcount : ((Layout.ofList ctx.source list).separators 0).sum + 1 =
      (Layout.ofList ctx.source list).arguments.length)
    (hbetween : ∀ c ∈ ((Layout.ofList ctx.source list).separators 0).tail.dropLast, 1 ≤ c) :
    (∀ v ∈ removals ctx list, v ∈ check ctx root) ∧
    (∃ front back, width front = list.span.start ∧
      ctx.source.chars = front ++ ((Layout.ofList ctx.source list).text ++ back) ∧
      Violation.applyFixes ctx.source.content (removals ctx list) =
        ⟨String.ofList (front ++ ((remainder ctx list).text ++ back)),
          (removals ctx list).length, 0⟩) ∧
    (remainder ctx list).nodes = list.namedChildren.filter (fun t => !isCamelize ctx.source t) ∧
    ((remainder ctx list).WellSeparated ↔
      ∀ o ∈ withPrevious none list.namedChildren, isCamelize ctx.source o.2 = true →
        TakesComma ctx.source o.1 o.2) ∧
    ((Layout.ofList ctx.source list).Lined →
      (Layout.ofList ctx.source list).BehindNoComment (isCamelize ctx.source) →
      (remainder ctx list).Lined) := by
  have hmem := mem_nodes_of_mem_optionLists (CallPattern.mem_nodes_of_mem_search hcall) hlist
  have hfits := hroot.fits list hmem
  refine ⟨fun v hv => mem_check_iff.2 ⟨call, hcall, list, hlist, hv⟩, ?_, ?_, ?_,
    fun hlined hbehind => hlined.without hbehind⟩
  · -- the text in front of the list is copied, and the edits are woven into what follows
    obtain ⟨front, rest, hchars, hfront⟩ := isBoundary_iff.1 hfits.start_boundary
    have horder := Layout.inOrder_namedChildren hroot hmem
    rw [← hfront] at horder
    obtain ⟨back, hback, -, -, hwoven⟩ := woven_layout hchars hfits.stop_boundary horder
    have hall : Woven 0 _ _ _ := Woven.copy front (by rw [Nat.zero_add]; exact hwoven)
    rw [← hchars, ctx.source.chars_eq] at hall
    rw [hfront] at hback
    refine ⟨front, back, hfront, by rw [hchars, hback]; rfl, ?_⟩
    have hlength : (removalEdits ctx none list.namedChildren).length = (removals ctx list).length := by
      unfold removalEdits removals
      rw [List.length_map, List.length_map]
    unfold Violation.applyFixes
    rw [filterMap_edit_removals, applyAll_of_woven hall, hlength, hfront]
    rfl
  · rw [remainder, Layout.nodes_without, Layout.ofList, Layout.nodes_ofNodes]
  · have hremoved : ∀ n, isCamelize ctx.source n = true → n.kind ≠ .comment := fun n hn => by
      rw [kind_of_isCamelize hn]; decide
    rw [remainder, Layout.wellSeparated_without_iff hremoved
      (Layout.wellSeparated_of_count hcount hbetween)]
    exact detachable_ofNodes_iff

/-- A field with two options to remove and a comment. -/
def twoOptions : FileContext :=
  .standalone ⟨"a.rb"⟩ "field :a, camelize: false, # c\n  null: true, camelize: true\n"

/-- The tree of this field. -/
def twoOptionsTree : Tree :=
  .node { kind := .other "program", span := ⟨0, 60⟩ }
    [.node { kind := .call, span := ⟨0, 59⟩ }
      [.node { kind := .identifier, span := ⟨0, 5⟩, field := some .method } [],
        .node { kind := .other "argument_list", span := ⟨6, 59⟩, field := some .arguments }
          [.node { kind := .other "simple_symbol", span := ⟨6, 8⟩ } [],
            .node { kind := .pair, span := ⟨10, 25⟩ }
              [.node { kind := .other "hash_key_symbol", span := ⟨10, 18⟩, field := some .key } [],
                .node { kind := .other "false", span := ⟨20, 25⟩ } []],
            .node { kind := .comment, span := ⟨27, 30⟩ } [],
            .node { kind := .pair, span := ⟨33, 43⟩ }
              [.node { kind := .other "hash_key_symbol", span := ⟨33, 37⟩, field := some .key } [],
                .node { kind := .other "true", span := ⟨39, 43⟩ } []],
            .node { kind := .pair, span := ⟨45, 59⟩ }
              [.node { kind := .other "hash_key_symbol", span := ⟨45, 53⟩, field := some .key } [],
                .node { kind := .other "true", span := ⟨55, 59⟩ } []]]]]

/-- Both options go, each with the comma in front of it. -/
theorem applyFixes_removals_twoOptions :
    twoOptionsTree.WellPlaced twoOptions.source.chars ∧
      ∃ call ∈ pattern.search twoOptions.source twoOptionsTree, ∃ list ∈ optionLists call,
        (Violation.applyFixes twoOptions.source.content (removals twoOptions list)).applied = 2 ∧
        (remainder twoOptions list).text = ":a, # c\n  null: true".toList ∧
        (remainder twoOptions list).WellSeparated := by
  have hplaced : twoOptionsTree.WellPlaced twoOptions.source.chars := by decide +kernel
  obtain ⟨call, hcall, list, hlist, hcount, hbetween, hcommas, hlength, htext⟩ :
      ∃ call ∈ pattern.search twoOptions.source twoOptionsTree, ∃ list ∈ optionLists call,
        ((Layout.ofList twoOptions.source list).separators 0).sum + 1 =
          (Layout.ofList twoOptions.source list).arguments.length ∧
        (∀ c ∈ ((Layout.ofList twoOptions.source list).separators 0).tail.dropLast, 1 ≤ c) ∧
        (∀ o ∈ withPrevious none list.namedChildren, isCamelize twoOptions.source o.2 = true →
          TakesComma twoOptions.source o.1 o.2) ∧
        (removals twoOptions list).length = 2 ∧
        (remainder twoOptions list).text = ":a, # c\n  null: true".toList := by
    decide +kernel
  obtain ⟨-, ⟨front, back, -, -, happly⟩, -, hiff, -⟩ :=
    applyFixes_removals hplaced hcall hlist hcount hbetween
  exact ⟨hplaced, call, hcall, list, hlist, by rw [happly, hlength], htext, hiff.2 hcommas⟩

/-- A field with an option in braces that opens its list. -/
def leadingOption : FileContext :=
  .standalone ⟨"a.rb"⟩ "field :a, \x7b camelize: false, b: 1 \x7d\n"

/-- The tree of this field. -/
def leadingOptionTree : Tree :=
  .node { kind := .other "program", span := ⟨0, 36⟩ }
    [.node { kind := .call, span := ⟨0, 35⟩ }
      [.node { kind := .identifier, span := ⟨0, 5⟩, field := some .method } [],
        .node { kind := .other "argument_list", span := ⟨6, 35⟩, field := some .arguments }
          [.node { kind := .other "simple_symbol", span := ⟨6, 8⟩ } [],
            .node { kind := .hash, span := ⟨10, 35⟩ }
              [.node { kind := .pair, span := ⟨12, 27⟩ }
                [.node { kind := .other "hash_key_symbol", span := ⟨12, 20⟩, field := some .key } [],
                  .node { kind := .other "false", span := ⟨22, 27⟩ } []],
                .node { kind := .pair, span := ⟨29, 33⟩ }
                  [.node { kind := .other "hash_key_symbol", span := ⟨29, 30⟩, field := some .key } [],
                    .node { kind := .other "integer", span := ⟨32, 33⟩ } []]]]]]

/-- The comma behind an option that opens its list is left in front of the next one. -/
theorem leadingOption_not_wellSeparated :
    leadingOptionTree.WellPlaced leadingOption.source.chars ∧
      ∃ call ∈ pattern.search leadingOption.source leadingOptionTree, ∃ list ∈ optionLists call,
        ((Layout.ofList leadingOption.source list).separators 0).sum + 1 =
          (Layout.ofList leadingOption.source list).arguments.length ∧
        (∀ c ∈ ((Layout.ofList leadingOption.source list).separators 0).tail.dropLast, 1 ≤ c) ∧
        Violation.applyFixes leadingOption.source.content (removals leadingOption list) =
          ⟨"field :a, \x7b , b: 1 \x7d\n", 1, 0⟩ ∧
        (remainder leadingOption list).arguments.length = 1 ∧
        ((remainder leadingOption list).separators 0) = [1, 0] ∧
        ¬(remainder leadingOption list).WellSeparated := by
  decide +kernel

end Camelize

end RubyLint
