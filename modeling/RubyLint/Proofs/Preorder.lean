import RubyLint.Proofs.Fixable

/-!
# Rules report in pre-order

A rule goes through a tree from the top down and from left to right, and at each node that it looks at
it may report the node or nodes inside it. The analyzer leaves violations out and changes others, but
it does not move them. All that is asked of the tree here is that it is one: its ranges need not be
nested or in order.

* `Tree.nodes_sublist_of_child`: the nodes inside a child stand in the order of the whole tree.
* `InPreorder`: locations that come from a walk; `InPreorder.offset_mem`: where they are.
* `Rule.BuiltIn.inPreorder`: **a built-in rule reports in pre-order**; `TextRule.BuiltIn.pairwise_offset`:
  the rule over texts reports from left to right.
* `Analyzer.inPreorder_runRule`, `Analyzer.pairwise_offset_runTextRule`: **so does the analyzer.**
-/

namespace RubyLint

namespace Tree

variable {t n : Tree} {ts us : List Tree}

theorem nodesAll_eq_flatMap (ts : List Tree) : nodesAll ts = ts.flatMap nodes := by
  induction ts with
  | nil => rw [nodesAll]; rfl
  | cons t ts ih => rw [nodesAll, ih, List.flatMap_cons]

theorem nodesAll_sublist (h : ts.Sublist us) : (nodesAll ts).Sublist (nodesAll us) := by
  rw [nodesAll_eq_flatMap, nodesAll_eq_flatMap]
  exact h.flatMap nodes

theorem singleton_sublist_nodes (t : Tree) : [t].Sublist t.nodes :=
  List.singleton_sublist.2 t.mem_nodes_self

theorem sublist_nodesAll (ts : List Tree) : ts.Sublist (nodesAll ts) := by
  induction ts with
  | nil => exact List.nil_sublist _
  | cons t ts ih =>
    rw [nodesAll]
    exact t.singleton_sublist_nodes.append ih

theorem nodesAll_children_sublist (t : Tree) : (nodesAll t.children).Sublist t.nodes := by
  rw [nodes_eq]
  exact List.sublist_cons_self _ _

/-- The nodes inside a child stand in the order of the whole tree. -/
theorem nodes_sublist_of_child (h : n ∈ t.children) : n.nodes.Sublist t.nodes :=
  (nodes_isInfix (mem_nodes_of_child t.mem_nodes_self h)).sublist

end Tree

/-- **Locations in pre-order**, as a walk reports them. A rule about the whole file reports its start,
once at most. Any other one looks at nodes in pre-order, and of those inside the one that it looks at
it reports some, in pre-order again. -/
inductive InPreorder (ctx : FileContext) (root : Tree) : List Location → Prop
  | file {locations : List Location} (h : locations.Sublist [ctx.locate ⟨0, 0⟩]) :
      InPreorder ctx root locations
  | walk {locations : List Location} (visits : List (Tree × List Tree))
      (hvisits : (visits.map Prod.fst).Sublist root.nodes)
      (hinside : ∀ visit ∈ visits, visit.2.Sublist visit.1.nodes)
      (h : locations.Sublist ((visits.flatMap Prod.snd).map fun n => ctx.locate n.span)) :
      InPreorder ctx root locations

namespace InPreorder

variable {ctx : FileContext} {root : Tree} {locations fewer : List Location} {ns : List Tree}

/-- What is left out does not change the order. -/
theorem sublist (h : InPreorder ctx root locations) (hfewer : fewer.Sublist locations) :
    InPreorder ctx root fewer := by
  cases h with
  | file h => exact .file (hfewer.trans h)
  | walk visits hvisits hinside h => exact .walk visits hvisits hinside (hfewer.trans h)

/-- A walk that reports nodes that it looks at. -/
theorem of_nodes (h : ns.Sublist root.nodes) :
    InPreorder ctx root (ns.map fun n => ctx.locate n.span) := by
  refine .walk (ns.map fun n => (n, [n])) ?_ ?_ ?_
  · have hfst : (ns.map fun n => (n, [n])).map Prod.fst = ns := by
      rw [List.map_map]
      exact List.map_id ns
    rw [hfst]
    exact h
  · intro visit hvisit
    obtain ⟨n, -, rfl⟩ := List.mem_map.1 hvisit
    exact n.singleton_sublist_nodes
  · rw [List.flatMap_map]
    simp

/-- A location of a walk is the start of the file or a node of the tree. -/
theorem exists_span {l : Location} (h : InPreorder ctx root locations) (hl : l ∈ locations) :
    l = ctx.locate ⟨0, 0⟩ ∨ ∃ n ∈ root.nodes, l = ctx.locate n.span := by
  cases h with
  | file h => exact Or.inl (List.mem_singleton.1 (h.subset hl))
  | walk visits hvisits hinside h =>
    obtain ⟨n, hn, rfl⟩ := List.mem_map.1 (h.subset hl)
    obtain ⟨visit, hvisit, hn⟩ := List.mem_flatMap.1 hn
    have houter : visit.1 ∈ root.nodes := hvisits.subset (List.mem_map_of_mem hvisit)
    exact Or.inr ⟨n, Tree.nodes_subset houter ((hinside visit hvisit).subset hn), rfl⟩

end InPreorder

/-- What entries of a list are replaced by stands in their order. -/
theorem map_filterMap_sublist {α β γ : Type} {f : α → Option β} {key : α → γ} {key' : β → γ}
    (h : ∀ a b, f a = some b → key' b = key a) (l : List α) :
    ((l.filterMap f).map key').Sublist (l.map key) := by
  induction l with
  | nil => exact List.Sublist.refl _
  | cons a l ih =>
    rw [List.map_cons]
    cases hf : f a with
    | none =>
      rw [List.filterMap_cons_none hf]
      exact ih.cons _
    | some b =>
      rw [List.filterMap_cons_some hf, List.map_cons, h a b hf]
      exact ih.cons_cons _

theorem descendants_sublist (root : Tree) : (descendants root).Sublist root.nodes := by
  rw [descendants_eq_named]
  exact List.filter_sublist

section Rules

variable {ctx : FileContext} {root : Tree}

/-- Calls are found in pre-order. -/
theorem CallPattern.search_sublist (p : CallPattern) (source : Source) (root : Tree) :
    ((p.search source root).map Call.node).Sublist root.nodes := by
  have hfound : ((p.search source root).map Call.node).Sublist ((descendants root).map id) :=
    map_filterMap_sublist (fun _ _ => node_of_find?) _
  rw [List.map_id] at hfound
  exact hfound.trans (descendants_sublist root)

/-- Some of the calls of a shape, reported one by one. -/
theorem RuleInfo.inPreorder_calls {i : RuleInfo} {p : CallPattern} {calls : List Call}
    {message : Call → String} (h : calls.Sublist (p.search ctx.source root)) :
    InPreorder ctx root ((calls.map fun call =>
      i.violation (ctx.locate call.node.span) (message call)).map (·.location)) := by
  have hnodes := (h.map Call.node).trans (p.search_sublist ctx.source root)
  have hwalk : InPreorder ctx root _ := .of_nodes hnodes
  rw [List.map_map] at hwalk ⊢
  exact hwalk

theorem MigrationLogging.inPreorder_check (r : MigrationLogging) :
    InPreorder ctx root ((r.check ctx root).map (·.location)) := by
  unfold check
  split
  · exact RuleInfo.inPreorder_calls List.filter_sublist
  · exact .file (List.nil_sublist _)

theorem LineLimit.inPreorder_check (r : LineLimit) :
    InPreorder ctx root ((r.check ctx).map (·.location)) := by
  unfold check
  split
  · exact .file (List.nil_sublist _)
  · exact .file (List.Sublist.refl _)

theorem FrozenLiteral.inPreorder_check :
    InPreorder ctx root ((FrozenLiteral.check ctx root).map (·.location)) := by
  unfold check
  split
  · exact .file (List.nil_sublist _)
  · exact .file (List.Sublist.refl _)

theorem PreferStruct.inPreorder_check :
    InPreorder ctx root ((PreferStruct.check ctx root).map (·.location)) := by
  have hnodes : ((descendants root).filter (isImmutable ctx.source)).Sublist root.nodes :=
    List.filter_sublist.trans (descendants_sublist root)
  have hwalk : InPreorder ctx root _ := .of_nodes hnodes
  unfold check
  rw [List.map_map]
  exact hwalk

namespace Camelize

/-- Options stand in the order of the arguments that they are or that they stand in. -/
theorem options_sublist (arguments : List Tree) :
    ((options arguments).map Prod.snd).Sublist (Tree.nodesAll arguments) := by
  have hnodes : Tree.nodesAll arguments =
      (withPrevious none arguments).flatMap fun entry => entry.2.nodes := by
    conv_lhs => rw [← map_snd_withPrevious none arguments]
    rw [Tree.nodesAll_eq_flatMap, List.flatMap_map]
  unfold options
  rw [hnodes, List.map_flatMap]
  apply List.Sublist.flatMap_right
  rintro ⟨previous, t⟩ -
  simp only
  split
  · exact t.singleton_sublist_nodes
  · -- the options in braces are among the named children of the hash
    have hpairs := (List.filter_sublist (l := withPrevious none t.namedChildren)
      (p := fun entry => entry.2.kind = .pair)).map Prod.snd
    rw [map_snd_withPrevious] at hpairs
    have hchildren : t.namedChildren.Sublist t.nodes :=
      (List.filter_sublist.trans (Tree.sublist_nodesAll _)).trans t.nodesAll_children_sublist
    exact hpairs.trans hchildren
  · exact List.nil_sublist _

theorem options_argumentList_sublist (call : Call) :
    ((options call.argumentList).map Prod.snd).Sublist call.node.nodes := by
  refine (options_sublist _).trans ?_
  unfold Call.argumentList
  cases hchild : call.node.child? .arguments with
  | none => exact List.nil_sublist _
  | some arguments =>
    have hinside : (Tree.nodesAll arguments.namedChildren).Sublist arguments.nodes :=
      (Tree.nodesAll_sublist List.filter_sublist).trans arguments.nodesAll_children_sublist
    exact hinside.trans (Tree.nodes_sublist_of_child (List.mem_of_find?_eq_some hchild))

theorem inPreorder_check : InPreorder ctx root ((check ctx root).map (·.location)) := by
  unfold check
  extract_lets found
  -- the rule looks at calls, and reports options inside them
  refine .walk ((pattern.search ctx.source root).map fun call =>
    (call.node, (options call.argumentList).map Prod.snd)) ?_ ?_ ?_
  · rw [List.map_map]
    exact pattern.search_sublist ctx.source root
  · intro visit hvisit
    obtain ⟨call, -, rfl⟩ := List.mem_map.1 hvisit
    exact options_argumentList_sublist call
  · have hnodes : (((pattern.search ctx.source root).map fun call =>
        (call.node, (options call.argumentList).map Prod.snd)).flatMap Prod.snd) =
        found.map Prod.snd := by
      rw [List.flatMap_map, List.map_flatMap]
    rw [hnodes, List.map_map, List.map_map]
    exact List.filter_sublist.map _

end Camelize

namespace ConstantPrefix

open Outline Item

theorem map_span_preorder (item : Item) :
    (ofItem item).preorder.map (ofItem item).span = item.items.map Item.span := by
  rw [preorder_ofItem]
  apply List.ext_getElem?
  intro id
  rw [List.getElem?_map, List.getElem?_map]
  by_cases hid : id < (ofItem item).size
  · obtain ⟨_, inner, hinner, hholds, -⟩ := exists_holds item hid
    rw [List.getElem?_range hid, hinner, Option.map_some, Option.map_some, hholds.span_eq]
  · have hitems : item.items.length ≤ id := by
      rw [length_items, ← size_ofItem]
      omega
    have hrange : (List.range (ofItem item).size).length ≤ id := by
      rw [List.length_range]
      omega
    rw [List.getElem?_eq_none hitems, List.getElem?_eq_none hrange]
    rfl

/-- The ranges of an outline are those of nodes, in pre-order. -/
theorem spans_sublist (source : Source) (root : Tree) :
    ((Outline.ofTree source root).preorder.map (Outline.ofTree source root).span).Sublist
      (root.nodes.map Tree.span) := by
  unfold Outline.ofTree
  rw [map_span_preorder]
  exact Item.spans_sublist (readings_ofRoot source root)

theorem inPreorder_check (r : ConstantPrefix) :
    InPreorder ctx root ((r.check ctx (.ofTree ctx.source root)).map (·.location)) := by
  have hflagged : ((r.flagged (.ofTree ctx.source root)).map
      (Outline.ofTree ctx.source root).span).Sublist (root.nodes.map Tree.span) :=
    (List.filter_sublist.map _).trans (spans_sublist ctx.source root)
  obtain ⟨ns, hns, hspans⟩ := List.sublist_map_iff.1 hflagged
  have hwalk : InPreorder ctx root _ := .of_nodes hns
  have hlocations : (r.check ctx (.ofTree ctx.source root)).map (·.location) =
      (ns.map Tree.span).map ctx.locate := by
    rw [← hspans]
    unfold check
    rw [List.map_map, List.map_map]
    rfl
  rw [hlocations, List.map_map]
  exact hwalk

end ConstantPrefix

/-- The scan of a text finds operators from left to right. -/
theorem LiquidWords.pairwise_operators (offset : Nat) (cs : List Char) :
    (operators offset cs).Pairwise fun found later => found.1 < later.1 := by
  have hbehind : ∀ {offset : Nat} {cs : List Char} {later : Nat × Operator},
      later ∈ operators (offset + 2) cs → offset < later.1 := by
    intro offset cs later hlater
    obtain ⟨front, -, -, hoffset⟩ := mem_operators hlater
    omega
  induction offset, cs using operators.induct with
  | case1 offset cs ih => exact List.pairwise_cons.2 ⟨fun later => hbehind, ih⟩
  | case2 offset cs ih => exact List.pairwise_cons.2 ⟨fun later => hbehind, ih⟩
  | case3 offset c cs hor hand ih =>
    rw [operators]
    · exact ih
    · exact hor
    · exact hand
  | case4 => exact List.Pairwise.nil

end Rules

/-- **A built-in rule reports in pre-order**, whatever the ranges of the tree. -/
theorem Rule.BuiltIn.inPreorder {r : Rule} (hr : r.BuiltIn) (ctx : FileContext) (root : Tree) :
    InPreorder ctx root ((r.check ctx ⟨root, .ofTree ctx.source root⟩).map (·.location)) := by
  cases hr with
  | constantPrefix r => exact r.inPreorder_check
  | frozenLiteral => exact FrozenLiteral.inPreorder_check
  | blockCall | noDirChdir | noReload | noResolveField =>
    exact RuleInfo.inPreorder_calls (List.Sublist.refl _)
  | enumValue => exact RuleInfo.inPreorder_calls List.filter_sublist
  | preferStruct => exact PreferStruct.inPreorder_check
  | camelize => exact Camelize.inPreorder_check
  | lineLimit r => exact r.inPreorder_check
  | migrationLogging r => exact r.inPreorder_check

/-- The built-in rule over texts reports from left to right. -/
theorem TextRule.BuiltIn.pairwise_offset {r : TextRule} (hr : r.BuiltIn) (ctx : FileContext) :
    ((r.check ctx).map (·.location)).Pairwise fun l k => l.offset < k.offset := by
  cases hr
  change ((LiquidWords.check ctx).map (·.location)).Pairwise _
  unfold LiquidWords.check
  rw [List.map_map, List.pairwise_map]
  exact LiquidWords.pairwise_operators 0 ctx.source.chars

/-- The analyzer leaves out violations of a rule and changes others, but it does not move them. -/
theorem locations_settle_sublist (config : Config) (index : AllowIndex) (rule : String)
    (needed : Bool) (vs : List Violation) :
    ((settle index rule needed (config.overrideSeverity rule vs)).map (·.location)).Sublist
      (vs.map (·.location)) := by
  have hoverride : (config.overrideSeverity rule vs).map (·.location) = vs.map (·.location) := by
    unfold Config.overrideSeverity
    split
    · rw [List.map_map]
      rfl
    · rfl
  rw [← hoverride]
  unfold settle
  split
  · exact List.Sublist.refl _
  · apply map_filterMap_sublist
    intro v w hsettled
    unfold settleOne? at hsettled
    split at hsettled
    · cases hsettled; rfl
    · split at hsettled
      · cases hsettled; rfl
      · cases hsettled

namespace Analyzer

variable {a : Analyzer} {ctx : FileContext} {index : AllowIndex}

/-- **An analyzer reports what a rule finds in pre-order.** -/
theorem inPreorder_runRule {r : Rule} (hr : r.BuiltIn) (root : Tree) :
    InPreorder ctx root
      ((a.runRule ctx index ⟨root, .ofTree ctx.source root⟩ r).map (·.location)) := by
  unfold runRule
  split
  · exact (hr.inPreorder ctx root).sublist (locations_settle_sublist _ _ _ _ _)
  · exact .file (List.nil_sublist _)

theorem pairwise_offset_runTextRule {r : TextRule} (hr : r.BuiltIn) :
    ((a.runTextRule ctx index r).map (·.location)).Pairwise fun l k => l.offset < k.offset :=
  (hr.pairwise_offset ctx).sublist (locations_settle_sublist _ _ _ _ _)

end Analyzer

end RubyLint
