import RubyLint.Syntax.Tree

/-!
# Walking a tree with a cursor

A cursor stands on one node of a tree and moves to its first child, to its next sibling and to its
parent. A walk visits all nodes below its start with these three moves alone; it counts its depth,
so it never leaves the start node for a sibling of it.

* `Cursor`: a node and the way back up.
* `Walk.advance`: the next node of a walk in pre-order.
* `Walk.pending`: the nodes that a walk has still to visit; a move drops the first of them, so a walk
  ends.
* `Walk.next`: the next named node of a walk, and the walk that is left.
* `descendants`: the named nodes that a walk visits.
-/

namespace RubyLint

/-- A node above the cursor, with the siblings after the child that leads to the cursor. -/
structure Cursor.Frame where
  parent : Tree
  later : List Tree

/-- A node of a tree together with the nodes above it, nearest first. -/
structure Cursor where
  focus : Tree
  above : List Cursor.Frame

namespace Cursor

/-- The cursor on the top of a tree. -/
def ofTree (t : Tree) : Cursor := ⟨t, []⟩

/-- The first child. -/
def firstChild? (c : Cursor) : Option Cursor :=
  match c.focus.children with
  | [] => none
  | t :: ts => some ⟨t, ⟨c.focus, ts⟩ :: c.above⟩

/-- The next sibling. -/
def nextSibling? (c : Cursor) : Option Cursor :=
  match c.above with
  | ⟨parent, t :: ts⟩ :: above => some ⟨t, ⟨parent, ts⟩ :: above⟩
  | _ => none

/-- The parent. -/
def parent? (c : Cursor) : Option Cursor :=
  match c.above with
  | ⟨parent, _⟩ :: above => some ⟨parent, above⟩
  | [] => none

end Cursor

/-- A walk under way: where it stands and how far below its start, until it is done. -/
structure Walk where
  cursor : Cursor
  depth : Nat
  done : Bool

namespace Walk

/-- The walk that starts on a node. -/
def start (c : Cursor) : Walk := ⟨c, 0, false⟩

/-- Climbs until there is a next sibling; done when back at the start. -/
def climb : Nat → Cursor → Walk
  | 0, c => ⟨c, 0, true⟩
  | depth + 1, c =>
    match c.nextSibling? with
    | some next => ⟨next, depth + 1, false⟩
    | none => climb depth (c.parent?.getD c)

/-- Moves to the node after the present one: down if there is a child, else across or up. -/
def advance (w : Walk) : Walk :=
  match w.cursor.firstChild? with
  | some child => ⟨child, w.depth + 1, false⟩
  | none => climb w.depth w.cursor

/-! ## What a walk has still to visit -/

/-- The nodes that the siblings after the cursor and after `depth - 1` of the nodes above it lead to. -/
def behind : Nat → List Cursor.Frame → List Tree
  | depth + 1, frame :: above => Tree.nodesAll frame.later ++ behind depth above
  | _, _ => []

/-- The nodes that a walk has still to visit, the present one first. -/
def pending (w : Walk) : List Tree :=
  if w.done then [] else w.cursor.focus.nodes ++ behind w.depth w.cursor.above

theorem behind_nil (depth : Nat) : behind depth [] = [] := by
  cases depth <;> rfl

theorem pending_climb (depth : Nat) (c : Cursor) :
    (climb depth c).pending = behind depth c.above := by
  induction depth generalizing c with
  | zero => rfl
  | succ depth ih =>
    obtain ⟨focus, above⟩ := c
    match above with
    | [] =>
      have h := ih ⟨focus, []⟩
      rw [behind_nil] at h
      exact h
    | ⟨parent, []⟩ :: above => exact ih ⟨parent, above⟩
    | ⟨parent, t :: ts⟩ :: above =>
      -- the next sibling takes its nodes out of those that are held back
      change t.nodes ++ (Tree.nodesAll ts ++ behind depth above) =
        (t.nodes ++ Tree.nodesAll ts) ++ behind depth above
      rw [List.append_assoc]

/-- **A move drops the present node** from what is still to visit. -/
theorem pending_advance (w : Walk) (h : w.done = false) :
    w.pending = w.cursor.focus :: w.advance.pending := by
  obtain ⟨⟨⟨info, children⟩, above⟩, depth, done⟩ := w
  cases h
  cases children with
  | nil =>
    change Tree.node info [] :: behind depth above = _
    congr 1
    exact (pending_climb depth ⟨.node info [], above⟩).symm
  | cons t ts =>
    change Tree.node info (t :: ts) :: ((t.nodes ++ Tree.nodesAll ts) ++ behind depth above) =
      Tree.node info (t :: ts) :: (t.nodes ++ (Tree.nodesAll ts ++ behind depth above))
    rw [List.append_assoc]

/-! ## The named nodes -/

/-- The next named node, if there is one, and the walk that is left. Nodes without a name are passed
over. -/
def next (w : Walk) : Option Tree × Walk :=
  if _h : w.done then (none, w)
  else if w.cursor.focus.isNamed then (some w.cursor.focus, w.advance)
  else w.advance.next
termination_by w.pending.length
decreasing_by
  rw [pending_advance w (Bool.eq_false_iff.2 _h)]
  exact Nat.lt_succ_self _

/-- What the next `n` calls hand out. -/
def collect : Nat → Walk → List Tree
  | 0, _ => []
  | n + 1, w =>
    match w.next with
    | (none, _) => []
    | (some t, rest) => t :: collect n rest

end Walk

/-- The named nodes of a tree, as a walk visits them. There are no more of them than nodes. -/
def descendants (t : Tree) : List Tree :=
  Walk.collect t.size (.start (.ofTree t))

end RubyLint
