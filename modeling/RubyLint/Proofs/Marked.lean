import Mathlib
import RubyLint.Catalog
import RubyLint.Proofs.FrozenHead
import RubyLint.Proofs.Placement
import RubyLint.Proofs.Walk

/-!
# The ranges that rules speak of

The ranges of violations and of their fixes come from few sources: nodes of the tree, the space
between a node and one before it, the top of the file, the ends of its lines, and the scan of its
text. `Marked` lists them, and each built-in rule is shown to keep to this list.

* `Marked`: the range of a violation and that of its fix.
* `Marked.fits_span`, `Marked.fits_fix`: **they are ranges of whole characters of the text**, when the
  nodes are.
* `Rule.BuiltIn`, `TextRule.BuiltIn`: the rules of the catalogue, with any options.
* `Rule.BuiltIn.marks`, `TextRule.BuiltIn.marks`: **a built-in rule reports marked ranges.**
-/

namespace RubyLint

open Text

/-- The range of a violation, and that of its fix if it has one. -/
inductive Marked (source : Source) (nodes : List Tree) : Span → Option Span → Prop
  /-- A node to look at. -/
  | node {n : Tree} (hn : n ∈ nodes) : Marked source nodes n.span none
  /-- A node to replace. -/
  | replaced {n : Tree} (hn : n ∈ nodes) : Marked source nodes n.span (some n.span)
  /-- A node that something goes in front of. -/
  | headed {n : Tree} (hn : n ∈ nodes) :
      Marked source nodes n.span (some ⟨n.span.start, n.span.start⟩)
  /-- A node at the left end of a chain, which is replaced as a whole. -/
  | chained {n top : Tree} (hn : n ∈ nodes) (htop : top ∈ nodes) (hin : n.span.Within top.span) :
      Marked source nodes n.span (some top.span)
  /-- A node to remove, together with what is between it and one before it. -/
  | removed {n previous : Tree} (hn : n ∈ nodes) (hprevious : previous ∈ nodes)
      (hlt : previous.span.stop ≤ n.span.start) :
      Marked source nodes n.span (some ⟨previous.span.stop, n.span.stop⟩)
  /-- The top of the file. -/
  | top : Marked source nodes ⟨0, 0⟩ none
  /-- The top of the file, with a line to insert there. -/
  | topped : Marked source nodes ⟨0, 0⟩ (some ⟨0, 0⟩)
  /-- The top of the file, with a line to insert after another one. -/
  | lined (n : Nat) :
      Marked source nodes ⟨0, 0⟩ (some ⟨source.lineEnd (n + 1), source.lineEnd (n + 1)⟩)
  /-- A boolean operator in the text. -/
  | symbol {front back : List Char} (op : LiquidWords.Operator)
      (hsplit : source.chars = front ++ op.symbol.toList ++ back) :
      Marked source nodes ⟨width front, width front + 2⟩ (some ⟨width front, width front + 2⟩)

theorem Span.fits_at {chars : List Char} {n : Nat} (h : isBoundary n chars = true) :
    (⟨n, n⟩ : Span).Fits chars := by
  obtain ⟨l, r, rfl, hw⟩ := isBoundary_iff.1 h
  refine ⟨Nat.le_refl n, ?_, h, h⟩
  rw [width_append]
  change n ≤ _
  omega

theorem LiquidWords.Operator.width_symbol (op : LiquidWords.Operator) :
    width op.symbol.toList = 2 := by
  cases op <;> rfl

namespace Marked

variable {source : Source} {nodes : List Tree} {span fix : Span} {mend : Option Span}

theorem fits_symbol {front back : List Char} {op : LiquidWords.Operator}
    (hsplit : source.chars = front ++ op.symbol.toList ++ back) :
    (⟨width front, width front + 2⟩ : Span).Fits source.chars := by
  have hstop : width (front ++ op.symbol.toList) = width front + 2 := by
    rw [width_append, op.width_symbol]
  refine ⟨Nat.le_add_right _ _, ?_, ?_, ?_⟩
  · rw [hsplit, width_append, hstop]; exact Nat.le_add_right _ _
  · rw [hsplit, List.append_assoc]; exact isBoundary_width front _
  · rw [hsplit, ← hstop]; exact isBoundary_width _ back

/-- **A marked range fits the text.** -/
theorem fits_span (h : Marked source nodes span mend)
    (hnodes : ∀ n ∈ nodes, n.span.Fits source.chars) : span.Fits source.chars := by
  cases h with
  | node hn | replaced hn | headed hn | chained hn | removed hn => exact hnodes _ hn
  | top | topped | lined => exact Span.fits_at (isBoundary_zero _)
  | symbol op hsplit => exact fits_symbol hsplit

/-- **The range of a fix fits the text.** -/
theorem fits_fix (h : Marked source nodes span (some fix))
    (hnodes : ∀ n ∈ nodes, n.span.Fits source.chars) : fix.Fits source.chars := by
  cases h with
  | replaced hn => exact hnodes _ hn
  | headed hn => exact Span.fits_at (hnodes _ hn).start_boundary
  | chained _ htop => exact hnodes _ htop
  | removed hn hprevious hlt =>
    have hfits := hnodes _ hn
    exact ⟨Nat.le_trans hlt hfits.start_le_stop, hfits.stop_le, (hnodes _ hprevious).stop_boundary,
      hfits.stop_boundary⟩
  | topped => exact Span.fits_at (isBoundary_zero _)
  | lined n => exact Span.fits_at (source.isBoundary_lineEnd (n + 1))
  | symbol op hsplit => exact fits_symbol hsplit

end Marked

/-- A violation is located at a marked range, and so is its fix. -/
def Violation.Marks (ctx : FileContext) (nodes : List Tree) (v : Violation) : Prop :=
  ∃ span fix, Marked ctx.source nodes span fix ∧ v.location = ctx.locate span ∧
    v.edit?.map (·.location) = fix.map ctx.locate

section Rules

variable {ctx : FileContext} {root : Tree} {v : Violation}

/-- Violations at nodes, without a fix. -/
theorem RuleInfo.marks_of_mem_map {i : RuleInfo} {calls : List Call} {message : Call → String}
    (hcalls : ∀ call ∈ calls, call.node ∈ root.nodes)
    (hv : v ∈ calls.map fun call => i.violation (ctx.locate call.node.span) (message call)) :
    v.Marks ctx root.nodes := by
  obtain ⟨call, hcall, rfl⟩ := List.mem_map.1 hv
  exact ⟨call.node.span, none, .node (hcalls call hcall), rfl, rfl⟩

theorem CallPattern.node_of_find? {p : CallPattern} {source : Source} {t : Tree} {call : Call}
    (h : p.find? source t = some call) : call.node = t := by
  obtain ⟨hcall, -⟩ := Option.filter_eq_some_iff.1 h
  unfold Call.ofTree? at hcall
  split at hcall
  · cases hcall; rfl
  · cases hcall

theorem CallPattern.mem_nodes_of_mem_search {p : CallPattern} {source : Source} {call : Call}
    (h : call ∈ p.search source root) : call.node ∈ root.nodes := by
  obtain ⟨n, hn, hfind⟩ := List.mem_filterMap.1 h
  rw [node_of_find? hfind]
  exact mem_nodes_of_mem_descendants hn

theorem Rule.ofCalls_marks {i : RuleInfo} {p : CallPattern} {message : Source → Call → String}
    {file : ParsedFile} (hv : v ∈ (Rule.ofCalls i p message).check ctx file) :
    v.Marks ctx file.root.nodes :=
  RuleInfo.marks_of_mem_map (fun _ => CallPattern.mem_nodes_of_mem_search) hv

theorem EnumValue.marks_of_mem_check (hv : v ∈ EnumValue.check ctx root) :
    v.Marks ctx root.nodes :=
  RuleInfo.marks_of_mem_map
    (fun _ hcall => CallPattern.mem_nodes_of_mem_search (List.mem_of_mem_filter hcall)) hv

theorem MigrationLogging.marks_of_mem_check {r : MigrationLogging}
    (hv : v ∈ r.check ctx root) : v.Marks ctx root.nodes := by
  unfold check at hv
  split at hv
  · exact RuleInfo.marks_of_mem_map
      (fun _ hcall => CallPattern.mem_nodes_of_mem_search (List.mem_of_mem_filter hcall)) hv
  · cases hv

theorem LineLimit.marks_of_mem_check {r : LineLimit} {nodes : List Tree} (hv : v ∈ r.check ctx) :
    v.Marks ctx nodes := by
  unfold check at hv
  split at hv
  · cases hv
  · rw [List.mem_singleton] at hv
    subst hv
    exact ⟨⟨0, 0⟩, none, .top, rfl, rfl⟩

theorem FrozenLiteral.marks_of_mem_check {nodes : List Tree}
    (hv : v ∈ FrozenLiteral.check ctx root) : v.Marks ctx nodes := by
  unfold check at hv
  split at hv
  · cases hv
  · rw [List.mem_singleton] at hv
    subst hv
    cases hlast : lastSpecial? ctx.source with
    | none =>
      have hfix : (fix ctx).location = ctx.locate ⟨0, 0⟩ := by unfold fix; rw [hlast]; rfl
      exact ⟨⟨0, 0⟩, some ⟨0, 0⟩, .topped, rfl, congrArg some hfix⟩
    | some line =>
      -- lines are counted from 1
      obtain ⟨n, rfl, -⟩ := clear_of_lastSpecial? hlast
      have hfix : (fix ctx).location =
          ctx.locate ⟨ctx.source.lineEnd (n + 1), ctx.source.lineEnd (n + 1)⟩ := by
        unfold fix; rw [hlast]; rfl
      exact ⟨⟨0, 0⟩, _, .lined n, rfl, congrArg some hfix⟩

theorem PreferStruct.marks_of_mem_check (hv : v ∈ PreferStruct.check ctx root) :
    v.Marks ctx root.nodes := by
  obtain ⟨n, hn, rfl⟩ := List.mem_map.1 hv
  have hmem := mem_nodes_of_mem_descendants (List.mem_of_mem_filter hn)
  exact ⟨n.span, some n.span, .replaced hmem, rfl, rfl⟩

theorem Tree.WellPlaced.ordered_named {chars : List Char} {n : Tree} (h : root.WellPlaced chars)
    (hn : n ∈ root.nodes) : n.namedChildren.Pairwise fun a b => a.span.stop ≤ b.span.start :=
  (h.ordered n hn).sublist List.filter_sublist

namespace Camelize

theorem map_snd_withPrevious (first : Option Nat) (ts : List Tree) :
    (withPrevious first ts).map Prod.snd = ts := by
  induction ts generalizing first with
  | nil => rfl
  | cons t ts ih => rw [withPrevious, List.map_cons, ih]

/-- Among nodes in source order, the end that a node is paired with is the given one, or that of a
node before it. -/
theorem mem_withPrevious {ts : List Tree} {first previous : Option Nat} {t : Tree}
    (hord : ts.Pairwise fun a b => a.span.stop ≤ b.span.start)
    (h : (previous, t) ∈ withPrevious first ts) :
    t ∈ ts ∧ (previous = first ∨
      ∃ p ∈ ts, previous = some p.span.stop ∧ p.span.stop ≤ t.span.start) := by
  induction ts generalizing first with
  | nil => cases h
  | cons u us ih =>
    obtain ⟨hnext, hord⟩ := List.pairwise_cons.1 hord
    rcases List.mem_cons.1 h with h | h
    · cases h; exact ⟨List.mem_cons_self, Or.inl rfl⟩
    · obtain ⟨ht, hprevious | ⟨p, hp, hprevious⟩⟩ := ih hord h
      · exact ⟨List.mem_cons_of_mem u ht,
          Or.inr ⟨u, List.mem_cons_self, hprevious, hnext t ht⟩⟩
      · exact ⟨List.mem_cons_of_mem u ht, Or.inr ⟨p, List.mem_cons_of_mem u hp, hprevious⟩⟩

/-- The options of a call stand among the named children of one node: the argument list, or a hash
in it. -/
theorem exists_siblings {call : Call} {previous : Option Nat} {t : Tree}
    (hroot : root.WellPlaced ctx.source.chars) (hcall : call.node ∈ root.nodes)
    (h : (previous, t) ∈ options call.argumentList) :
    ∃ n ∈ root.nodes, (previous, t) ∈ withPrevious none n.namedChildren := by
  obtain ⟨arguments, harguments, hlist⟩ : ∃ n ∈ root.nodes,
      call.argumentList = n.namedChildren ∨ call.argumentList = [] := by
    cases hchild : call.node.child? .arguments with
    | none => exact ⟨call.node, hcall, Or.inr (by unfold Call.argumentList; rw [hchild]; rfl)⟩
    | some n =>
      exact ⟨n, Tree.mem_nodes_of_child hcall (List.mem_of_find?_eq_some hchild),
        Or.inl (by unfold Call.argumentList; rw [hchild]; rfl)⟩
  obtain ⟨⟨before, argument⟩, hargument, hmem⟩ := List.mem_flatMap.1 h
  rcases hlist with hlist | hlist
  swap
  · rw [hlist] at hargument; cases hargument
  rw [hlist] at hargument
  simp only at hmem
  split at hmem
  · rw [List.mem_singleton] at hmem
    exact ⟨arguments, harguments, hmem ▸ hargument⟩
  · have hnamed := (mem_withPrevious (hroot.ordered_named harguments) hargument).1
    have hchild := List.mem_of_mem_filter hnamed
    exact ⟨argument, Tree.mem_nodes_of_child harguments hchild, List.mem_of_mem_filter hmem⟩
  · cases hmem

theorem marks_of_mem_check (hroot : root.WellPlaced ctx.source.chars)
    (hv : v ∈ check ctx root) : v.Marks ctx root.nodes := by
  obtain ⟨⟨previous, t⟩, hpair, rfl⟩ := List.mem_map.1 hv
  obtain ⟨call, hcall, hoption⟩ := List.mem_flatMap.1 (List.mem_of_mem_filter hpair)
  obtain ⟨n, hn, hmem⟩ :=
    exists_siblings hroot (CallPattern.mem_nodes_of_mem_search hcall) hoption
  have hsiblings : ∀ c ∈ n.namedChildren, c ∈ root.nodes := fun c hc =>
    Tree.mem_nodes_of_child hn (List.mem_of_mem_filter hc)
  obtain ⟨ht, rfl | ⟨p, hp, rfl, hlt⟩⟩ := mem_withPrevious (hroot.ordered_named hn) hmem
  · exact ⟨t.span, some t.span, .replaced (hsiblings t ht), rfl, rfl⟩
  · exact ⟨t.span, _, .removed (hsiblings t ht) (hsiblings p hp) hlt, rfl, rfl⟩

end Camelize

namespace ConstantPrefix

open Outline Item

variable {source : Source} {id : Nat}

/-- The range of a number of the outline is that of a node. -/
theorem exists_node (h : id < (Outline.ofTree source root).size) :
    ∃ n ∈ root.nodes, (Outline.ofTree source root).span id = n.span := by
  obtain ⟨_, item, hitem, hholds, -⟩ := exists_holds (ofRoot source root) h
  obtain ⟨n, hn, hread⟩ := exists_isReading source root (List.mem_of_getElem? hitem)
  exact ⟨n, hn, hholds.span_eq.trans hread.span_eq⟩

/-- The range of the left end of an offending chain lies inside that of the chain, and both are
ranges of nodes. -/
theorem exists_chain {r : ConstantPrefix} (hroot : root.WellPlaced source.chars)
    (hid : id ∈ r.flagged (.ofTree source root)) :
    ∃ n ∈ root.nodes, ∃ top ∈ root.nodes, n.span.Within top.span ∧
      (Outline.ofTree source root).span id = n.span ∧
      (Outline.ofTree source root).span ((Outline.ofTree source root).chainTop id) = top.span := by
  have ho := linked_ofItem (ofRoot source root)
  have hoffends := offends_of_mem_flagged ho hid
  have hlinks := hoffends.chain.links
  obtain ⟨name, hrole, -⟩ := hoffends.bare
  have hleft : id < (Outline.ofTree source root).size :=
    lt_size_of_role (o := ofItem (ofRoot source root)) (by rw [hrole]; simp)
  have htop : (Outline.ofTree source root).chainTop id < (Outline.ofTree source root).size :=
    Nat.lt_of_le_of_lt (ho.le_of_links hlinks) hleft
  obtain ⟨n, hn, hspan⟩ := exists_node hleft
  obtain ⟨top, htopmem, htopspan⟩ := exists_node htop
  obtain ⟨_, item, hitem, hholds, -⟩ := exists_holds (ofRoot source root) htop
  have hmem := List.mem_of_getElem? hitem
  obtain ⟨-, hwithin⟩ := hholds.chain_extent ((slim_ofRoot source root).of_mem hmem)
    ((nested_ofRoot hroot).of_mem hmem) hlinks hrole
  refine ⟨n, hn, top, htopmem, ?_, hspan, htopspan⟩
  rw [← hspan, ← htopspan]
  exact hholds.span_eq ▸ hwithin

theorem marks_of_mem_check {r : ConstantPrefix} (hroot : root.WellPlaced ctx.source.chars)
    (hv : v ∈ r.check ctx (.ofTree ctx.source root)) : v.Marks ctx root.nodes := by
  obtain ⟨id, hid, rfl⟩ := List.mem_map.1 hv
  obtain ⟨n, hn, top, htop, hin, hspan, htopspan⟩ := exists_chain hroot hid
  have hedit := r.suggestion_edit ctx (.ofTree ctx.source root) id
  unfold edit at hedit
  rw [hspan, htopspan] at hedit
  split at hedit
  · refine ⟨n.span, some top.span, .chained hn htop hin, congrArg ctx.locate hspan, ?_⟩
    exact congrArg (Option.map (·.location)) hedit
  · refine ⟨n.span, _, .headed hn, congrArg ctx.locate hspan, ?_⟩
    exact congrArg (Option.map (·.location)) hedit

end ConstantPrefix

namespace LiquidWords

/-- **Where the scan finds operators**: right after the characters in front of them. -/
theorem mem_operators {offset n : Nat} {cs : List Char} {op : Operator}
    (h : (n, op) ∈ operators offset cs) :
    ∃ front back, cs = front ++ op.symbol.toList ++ back ∧ n = offset + width front := by
  fun_induction operators offset cs with
  | case1 offset cs ih =>
    rcases List.mem_cons.1 h with h | h
    · cases h; exact ⟨[], cs, rfl, rfl⟩
    · obtain ⟨front, back, rfl, rfl⟩ := ih h
      have hwidth : width ('|' :: '|' :: front) = 1 + (1 + width front) := rfl
      exact ⟨'|' :: '|' :: front, back, rfl, by omega⟩
  | case2 offset cs ih =>
    rcases List.mem_cons.1 h with h | h
    · cases h; exact ⟨[], cs, rfl, rfl⟩
    · obtain ⟨front, back, rfl, rfl⟩ := ih h
      have hwidth : width ('&' :: '&' :: front) = 1 + (1 + width front) := rfl
      exact ⟨'&' :: '&' :: front, back, rfl, by omega⟩
  | case3 offset c cs _ _ ih =>
    obtain ⟨front, back, rfl, rfl⟩ := ih h
    exact ⟨c :: front, back, rfl, by rw [Nat.add_assoc]; rfl⟩
  | case4 => cases h

theorem marks_of_mem_check {nodes : List Tree} (hv : v ∈ check ctx) : v.Marks ctx nodes := by
  obtain ⟨⟨offset, op⟩, hop, rfl⟩ := List.mem_map.1 hv
  obtain ⟨front, back, hsplit, rfl⟩ := mem_operators hop
  rw [Nat.zero_add]
  exact ⟨_, _, .symbol op hsplit, rfl, rfl⟩

end LiquidWords

end Rules

/-- The rules over Ruby files of the catalogue, with any options. -/
inductive Rule.BuiltIn : Rule → Prop
  | constantPrefix (r : ConstantPrefix) : BuiltIn r.rule
  | frozenLiteral : BuiltIn FrozenLiteral.rule
  | blockCall (r : BlockCall) : BuiltIn r.rule
  | noDirChdir : BuiltIn RubyLint.noDirChdir
  | noReload : BuiltIn RubyLint.noReload
  | noResolveField : BuiltIn RubyLint.noResolveField
  | preferStruct : BuiltIn PreferStruct.rule
  | camelize : BuiltIn Camelize.rule
  | enumValue : BuiltIn EnumValue.rule
  | lineLimit (r : LineLimit) : BuiltIn r.rule
  | migrationLogging (r : MigrationLogging) : BuiltIn r.rule

/-- The rules over the text of other files of the catalogue. -/
inductive TextRule.BuiltIn : TextRule → Prop
  | liquidWords : BuiltIn LiquidWords.rule

theorem allRules_builtIn (config : Config) : ∀ r ∈ allRules config, r.BuiltIn := by
  intro r hr
  simp only [allRules, List.mem_cons, List.not_mem_nil, or_false] at hr
  rcases hr with rfl | rfl | rfl | rfl | rfl | rfl | rfl | rfl | rfl | rfl | rfl <;> constructor

theorem allTextRules_builtIn (config : Config) : ∀ r ∈ allTextRules config, r.BuiltIn := by
  intro r hr
  rw [List.mem_singleton.1 hr]
  exact .liquidWords

/-- **A built-in rule reports marked ranges**, of a file with a well placed tree. -/
theorem Rule.BuiltIn.marks {r : Rule} {ctx : FileContext} {root : Tree} {v : Violation}
    (hr : r.BuiltIn) (hroot : root.WellPlaced ctx.source.chars)
    (hv : v ∈ r.check ctx ⟨root, .ofTree ctx.source root⟩) : v.Marks ctx root.nodes := by
  cases hr with
  | constantPrefix => exact ConstantPrefix.marks_of_mem_check hroot hv
  | frozenLiteral => exact FrozenLiteral.marks_of_mem_check hv
  | blockCall | noDirChdir | noReload | noResolveField => exact Rule.ofCalls_marks hv
  | preferStruct => exact PreferStruct.marks_of_mem_check hv
  | camelize => exact Camelize.marks_of_mem_check hroot hv
  | enumValue => exact EnumValue.marks_of_mem_check hv
  | lineLimit => exact LineLimit.marks_of_mem_check hv
  | migrationLogging => exact MigrationLogging.marks_of_mem_check hv

/-- The text rule reports marked ranges, of any file. -/
theorem TextRule.BuiltIn.marks {r : TextRule} {ctx : FileContext} {nodes : List Tree}
    {v : Violation} (hr : r.BuiltIn) (hv : v ∈ r.check ctx) : v.Marks ctx nodes := by
  cases hr
  exact LiquidWords.marks_of_mem_check hv

end RubyLint
