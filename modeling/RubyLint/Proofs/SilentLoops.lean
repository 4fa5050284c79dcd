import RubyLint.Proofs.Marked

/-!
# Silent loops of data migrations nest

A walk from a node inside a tree goes through a stretch of the walk from the top, without a gap. So
the nodes of a block hold those of each loop inside it: if none of them logs, none of those does, and
a loop that is reported comes with all the loops in its block.

* `Tree.named_isInfix`: the nodes of a node stand together in the pre-order of the tree.
* `CallPattern.search_eq`: the calls of a shape are those named nodes that have it.
* `MigrationLogging.loops`, `MigrationLogging.silentLoops`: loops at any depth, and those without a
  logger at any depth of their blocks.
* `MigrationLogging.check_eq`: the search inside a search reports the silent loops, and no others.
* `MigrationLogging.ClosedUnderNesting`: what nesting means for a report of loops.
* `MigrationLogging.check_nested`: **with a loop, all loops in its block are reported**, and a logger
  inside any of them clears it.
-/

namespace RubyLint

/-- **The named nodes of a node stand together** in the pre-order of its tree. -/
theorem Tree.named_isInfix {n t : Tree} (h : n ∈ t.nodes) : n.named <:+: t.named :=
  (nodes_isInfix h).filter _

/-- The calls of a shape are the named nodes that are calls and have it. -/
theorem CallPattern.search_eq (p : CallPattern) (source : Source) (root : Tree) :
    p.search source root =
      (root.named.filter fun t => t.kind = .call && p.accepts source ⟨t⟩).map Call.mk := by
  unfold search
  rw [descendants_eq_named, ← List.filterMap_eq_filter, List.map_filterMap]
  congr 1
  funext t
  unfold find? Call.ofTree?
  by_cases hkind : t.kind = .call
  · simp [hkind, Option.filter, Option.guard]
  · simp [hkind]

namespace MigrationLogging

/-- A node is a loop over records with an attached block. -/
def isLoop (source : Source) (t : Tree) : Bool :=
  t.kind = .call && ["in_batches", "each"].contains (Call.method source ⟨t⟩) &&
    (t.child? .block).isSome

/-- A node has an attached block with a logger in it, at whatever depth. -/
def logs (source : Source) (t : Tree) : Bool :=
  (t.child? .block).any fun block => block.named.any (isLogger source)

/-- The loops of a tree at any depth, in pre-order. -/
def loops (source : Source) (t : Tree) : List Tree :=
  t.named.filter (isLoop source)

/-- The loops of a tree that do not log, in pre-order. -/
def silentLoops (source : Source) (t : Tree) : List Tree :=
  (loops source t).filter fun loop => !logs source loop

/-- What is reported of a loop. -/
def report (ctx : FileContext) (t : Tree) : Violation :=
  info.violation (ctx.locate t.span) "Long running data migrations blocks require logging"

section Nesting

variable {source : Source} {root outer block inner : Tree}

/-- A call of the shape of the rule is silent if it is a loop that does not log. With a block that is
passed with `&` a call has the shape too, but there is nothing in it to search. -/
theorem isSilent_and_accepts (source : Source) (t : Tree) :
    (isSilent source ⟨t⟩ && (t.kind = .call && pattern.accepts source ⟨t⟩)) =
      (!logs source t && isLoop source t) := by
  unfold CallPattern.accepts isSilent logs isLoop Call.hasBlock Call.block?
  cases hblock : t.child? .block with
  | none => simp only [Option.any_none, Option.isSome_none, Bool.and_false, Bool.false_and]
  | some block =>
    simp only [pattern, Presence.accepts, Option.all_none, Option.any_some, Option.isSome_some,
      Bool.true_or, Bool.and_true, descendants_eq_named]

/-- **The rule reports the silent loops**, and nothing else. -/
theorem check_eq {r : MigrationLogging} {ctx : FileContext} (h : r.appliesTo ctx = true)
    (root : Tree) :
    r.check ctx root = (silentLoops ctx.source root).map (report ctx) := by
  have hcalls : (pattern.search ctx.source root).filter (isSilent ctx.source) =
      (silentLoops ctx.source root).map Call.mk := by
    unfold silentLoops loops
    rw [CallPattern.search_eq, List.filter_map, List.filter_filter, List.filter_filter]
    congr 1
    exact List.filter_congr fun t _ => isSilent_and_accepts ctx.source t
  unfold check
  rw [if_pos h, hcalls, List.map_map]
  rfl

theorem logs_eq_true_iff (hblock : outer.child? .block = some block) :
    logs source outer = true ↔ ∃ n ∈ block.named, isLogger source n = true := by
  unfold logs
  rw [hblock, Option.any_some, List.any_eq_true]

theorem mem_nodes_of_mem_loops (h : inner ∈ loops source root) : inner ∈ root.nodes :=
  List.mem_of_mem_filter (List.mem_of_mem_filter h)

theorem block_mem_nodes (h : outer ∈ root.nodes) (hblock : outer.child? .block = some block) :
    block ∈ root.nodes :=
  Tree.mem_nodes_of_child h (List.mem_of_find?_eq_some hblock)

/-- What a loop inside a block logs, a loop around the block logs. -/
theorem logs_of_inner (hblock : outer.child? .block = some block) (hinner : inner ∈ block.nodes)
    (h : logs source inner = true) : logs source outer = true := by
  cases hbody : inner.child? .block with
  | none =>
    unfold logs at h
    rw [hbody] at h
    cases h
  | some body =>
    obtain ⟨n, hn, hlogger⟩ := (logs_eq_true_iff hbody).1 h
    have hbodyIn : body ∈ block.nodes := block_mem_nodes hinner hbody
    exact (logs_eq_true_iff hblock).2 ⟨n, (Tree.named_isInfix hbodyIn).subset hn, hlogger⟩

/-- The loops in the block of a silent loop are silent. -/
theorem silentLoops_block (h : logs source outer = false)
    (hblock : outer.child? .block = some block) :
    silentLoops source block = loops source block := by
  apply List.filter_eq_self.2
  intro inner hinner
  cases hlogs : logs source inner with
  | false => rfl
  | true =>
    rw [logs_of_inner hblock (mem_nodes_of_mem_loops hinner) hlogs] at h
    cases h

theorem silentLoops_isInfix (h : inner ∈ root.nodes) :
    silentLoops source inner <:+: silentLoops source root :=
  ((Tree.named_isInfix h).filter _).filter _

/-- A report of some loops of a tree is closed under nesting. -/
structure ClosedUnderNesting (source : Source) (root : Tree) (reported : List Tree) : Prop where
  /-- With a loop all the loops inside its block are reported, and these stand together. -/
  inner : ∀ outer ∈ reported, ∀ block, outer.child? .block = some block →
    (∀ inner ∈ loops source block, inner ∈ reported) ∧ loops source block <:+: reported
  /-- A loop is left out exactly when some node of its block, such as a loop, has a logger in it. -/
  cleared : ∀ outer ∈ loops source root, ∀ block, outer.child? .block = some block →
    (outer ∉ reported ↔ ∃ inner ∈ block.nodes, ∃ n ∈ inner.named, isLogger source n = true)

/-- **Silent loops are closed under nesting.** -/
theorem closedUnderNesting_silentLoops (source : Source) (root : Tree) :
    ClosedUnderNesting source root (silentLoops source root) where
  inner := by
    intro outer houter block hblock
    obtain ⟨hloop, hsilent⟩ := List.mem_filter.1 houter
    have hblockIn : block ∈ root.nodes := block_mem_nodes (mem_nodes_of_mem_loops hloop) hblock
    have htogether : loops source block <:+: silentLoops source root := by
      rw [← silentLoops_block (by simpa using hsilent) hblock]
      exact silentLoops_isInfix hblockIn
    exact ⟨fun inner hinner => htogether.subset hinner, htogether⟩
  cleared := by
    intro outer hloop block hblock
    have hout : outer ∉ silentLoops source root ↔ logs source outer = true := by
      unfold silentLoops
      simp [List.mem_filter, hloop]
    rw [hout, logs_eq_true_iff hblock]
    constructor
    · rintro ⟨n, hn, hlogger⟩
      exact ⟨block, block.mem_nodes_self, n, hn, hlogger⟩
    · rintro ⟨inner, hinner, n, hn, hlogger⟩
      exact ⟨n, (Tree.named_isInfix hinner).subset hn, hlogger⟩

end Nesting

/-- **Reported loops are closed under nesting.** In a data migration the rule reports the loops that are
silent, and nothing else. With each it reports all the loops inside its block, at any depth and one after
the other; and a logger inside any of these clears every loop around it. -/
theorem check_nested (r : MigrationLogging) (ctx : FileContext) (root : Tree)
    (h : r.appliesTo ctx = true) :
    r.check ctx root = (silentLoops ctx.source root).map (report ctx) ∧
    ClosedUnderNesting ctx.source root (silentLoops ctx.source root) ∧
    ∀ outer ∈ silentLoops ctx.source root, ∀ block, outer.child? .block = some block →
      (loops ctx.source block).map (report ctx) <:+: r.check ctx root := by
  have hclosed := closedUnderNesting_silentLoops ctx.source root
  refine ⟨check_eq h root, hclosed, ?_⟩
  intro outer houter block hblock
  rw [check_eq h root]
  exact (hclosed.inner outer houter block hblock).2.map _

/-- A data migration with two loops that have another one in their blocks; one of the four logs. -/
def twoNests : FileContext :=
  .standalone ⟨"db/data/a.rb"⟩
    "a.in_batches \x7b b.each \x7b c \x7d \x7d\nd.each \x7b e.each \x7b logger \x7d \x7d\n"

/-- The first loop of that migration. -/
def quietNest : Tree :=
  .node { kind := .call, span := ⟨0, 29⟩ }
    [.node { kind := .identifier, span := ⟨0, 1⟩, field := some .receiver } [],
      .node { kind := .identifier, span := ⟨2, 12⟩, field := some .method } [],
      .node { kind := .other "block", span := ⟨13, 29⟩, field := some .block }
        [.node { kind := .other "block_body", span := ⟨15, 27⟩, field := some .body }
          [.node { kind := .call, span := ⟨15, 27⟩ }
            [.node { kind := .identifier, span := ⟨15, 16⟩, field := some .receiver } [],
              .node { kind := .identifier, span := ⟨17, 21⟩, field := some .method } [],
              .node { kind := .other "block", span := ⟨22, 27⟩, field := some .block }
                [.node { kind := .other "block_body", span := ⟨24, 25⟩, field := some .body }
                  [.node { kind := .identifier, span := ⟨24, 25⟩ } []]]]]]]

/-- The loop in the block of the second one. -/
def loggingLoop : Tree :=
  .node { kind := .call, span := ⟨39, 56⟩ }
    [.node { kind := .identifier, span := ⟨39, 40⟩, field := some .receiver } [],
      .node { kind := .identifier, span := ⟨41, 45⟩, field := some .method } [],
      .node { kind := .other "block", span := ⟨46, 56⟩, field := some .block }
        [.node { kind := .other "block_body", span := ⟨48, 54⟩, field := some .body }
          [.node { kind := .identifier, span := ⟨48, 54⟩ } []]]]

/-- The second loop. -/
def loggingNest : Tree :=
  .node { kind := .call, span := ⟨30, 58⟩ }
    [.node { kind := .identifier, span := ⟨30, 31⟩, field := some .receiver } [],
      .node { kind := .identifier, span := ⟨32, 36⟩, field := some .method } [],
      .node { kind := .other "block", span := ⟨37, 58⟩, field := some .block }
        [.node { kind := .other "block_body", span := ⟨39, 56⟩, field := some .body } [loggingLoop]]]

/-- The tree of that migration. -/
def twoNestsTree : Tree :=
  .node { kind := .other "program", span := ⟨0, 59⟩ } [quietNest, loggingNest]

theorem appliesTo_twoNests : (ofPatterns defaultPaths).appliesTo twoNests = true := by
  -- a path without a backslash is matched as it stands
  have hpath : ("db/data/a.rb".map fun c => if c = '\\' then '/' else c) = "db/data/a.rb" := by
    rw [← String.toList_inj, String.toList_map]
    rfl
  change (ofPatterns defaultPaths).paths.any (·.accepts ("db/data/a.rb".map _)) = true
  rw [hpath]
  rfl

/-- Of the two outer loops the first is reported together with the loop in its block, and the second
is cleared by the logger of the loop in its block. -/
theorem check_nested_twoNests :
    (ofPatterns defaultPaths).appliesTo twoNests = true ∧
    quietNest ∈ silentLoops twoNests.source twoNestsTree ∧
    (∃ block, quietNest.child? .block = some block ∧
      (loops twoNests.source block).map Tree.span = [⟨15, 27⟩] ∧
      (∀ inner ∈ loops twoNests.source block,
        inner ∈ silentLoops twoNests.source twoNestsTree) ∧
      (loops twoNests.source block).map (report twoNests) <:+:
        (ofPatterns defaultPaths).check twoNests twoNestsTree) ∧
    loggingNest ∈ loops twoNests.source twoNestsTree ∧
    loggingNest ∉ silentLoops twoNests.source twoNestsTree := by
  obtain ⟨-, hclosed, hreported⟩ :=
    check_nested (ofPatterns defaultPaths) twoNests twoNestsTree appliesTo_twoNests
  have hquiet : quietNest ∈ silentLoops twoNests.source twoNestsTree := by
    refine List.mem_filter.2 ⟨List.mem_filter.2 ⟨List.mem_filter.2 ⟨?_, rfl⟩, rfl⟩, rfl⟩
    exact Tree.mem_nodes_of_child twoNestsTree.mem_nodes_self List.mem_cons_self
  have hlogging : loggingNest ∈ loops twoNests.source twoNestsTree := by
    refine List.mem_filter.2 ⟨List.mem_filter.2 ⟨?_, rfl⟩, rfl⟩
    exact Tree.mem_nodes_of_child twoNestsTree.mem_nodes_self
      (List.mem_cons_of_mem _ List.mem_cons_self)
  have hlogger : ∃ n ∈ loggingLoop.named, isLogger twoNests.source n = true :=
    List.any_eq_true.1 rfl
  refine ⟨appliesTo_twoNests, hquiet, ⟨_, rfl, rfl, (hclosed.inner quietNest hquiet _ rfl).1,
    hreported quietNest hquiet _ rfl⟩, hlogging, ?_⟩
  rw [hclosed.cleared loggingNest hlogging _ rfl]
  exact ⟨loggingLoop, List.mem_cons_of_mem _ (List.mem_cons_of_mem _ List.mem_cons_self), hlogger⟩

end MigrationLogging

end RubyLint
