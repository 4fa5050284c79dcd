import Mathlib.Logic.Function.Iterate
import RubyLint.Proofs.Walk

/-!
# Iterating over a subtree

An iterator hands out the named nodes of a subtree one call at a time; between calls all it has is a
walk under way. Each move drops one node from those still to visit, so a call that passes over tokens
ends, and so does the walk. The depth counter keeps it inside: going up as often as it says always leads
back to the start, so a start with later siblings or with parents is never left.

* `Walk.nth`: what a call hands out after some calls; `Walk.nth_eq`: the node at that place among those
  outstanding.
* `Walk.Inside`: the start is as far above the cursor as the depth says; `Inside.advance` (one move).
* `Walk.pending_moved` (a run of moves): the nodes still to visit after some moves.
* `Walk.iterates_preorder`: **an iterator hands out the named nodes of its subtree in pre-order, each
  once, and nothing ever after.**
-/

namespace RubyLint

namespace Walk

variable {w : Walk} {c : Cursor}

/-- What the call after `n` calls hands out. -/
def nth (n : Nat) (w : Walk) : Option Tree :=
  ((fun w => w.next.2)^[n] w).next.1

theorem nth_eq (n : Nat) (w : Walk) : w.nth n = w.outstanding[n]? := by
  induction n generalizing w with
  | zero =>
    rw [← List.head?_eq_getElem?]
    exact w.next_eq.1
  | succ n ih =>
    have hcall : w.nth (n + 1) = w.next.2.nth n := by
      unfold nth
      rw [Function.iterate_succ_apply]
    rw [hcall, ih, w.next_eq.2, List.getElem?_tail]

/-! ## Where the cursor stands -/

/-- One node up, if there is one above. -/
def up (c : Cursor) : Cursor :=
  c.parent?.getD c

/-- **The start is as far above the cursor as the depth says.** -/
structure Inside (c : Cursor) (w : Walk) : Prop where
  back : up^[w.depth] w.cursor = c
  depth_eq : w.cursor.above.length = c.above.length + w.depth

theorem inside_start (c : Cursor) : (start c).Inside c :=
  ⟨rfl, rfl⟩

theorem up_firstChild {child : Cursor} (h : c.firstChild? = some child) :
    up child = c ∧ child.above.length = c.above.length + 1 := by
  unfold Cursor.firstChild? at h
  split at h
  · cases h
  · cases h
    exact ⟨rfl, rfl⟩

theorem up_nextSibling {sibling : Cursor} (h : c.nextSibling? = some sibling) :
    up sibling = up c ∧ sibling.above.length = c.above.length := by
  unfold Cursor.nextSibling? at h
  split at h
  · rename_i parent t ts above habove
    cases h
    unfold up Cursor.parent?
    rw [habove]
    exact ⟨rfl, rfl⟩
  · cases h

theorem length_above_up {n : Nat} (h : c.above.length = n + 1) : (up c).above.length = n := by
  obtain ⟨focus, above⟩ := c
  cases above with
  | nil => cases h
  | cons frame above => exact Nat.succ.inj h

/-- Climbing stops at the start, or below it. -/
theorem inside_climb (depth : Nat) (here : Cursor) (hback : up^[depth] here = c)
    (hdepth : here.above.length = c.above.length + depth) : (climb depth here).Inside c := by
  induction depth generalizing here with
  | zero => exact ⟨hback, hdepth⟩
  | succ depth ih =>
    rw [climb]
    rw [Function.iterate_succ_apply] at hback
    cases hsibling : here.nextSibling? with
    | some sibling =>
      obtain ⟨hup, hlength⟩ := up_nextSibling hsibling
      refine ⟨?_, hlength.trans hdepth⟩
      rw [Function.iterate_succ_apply, hup]
      exact hback
    | none => exact ih (up here) hback (length_above_up hdepth)

/-- **A move stays inside** (one move). -/
theorem Inside.advance (h : w.Inside c) : w.advance.Inside c := by
  unfold Walk.advance
  cases hchild : w.cursor.firstChild? with
  | some child =>
    obtain ⟨hup, hlength⟩ := up_firstChild hchild
    refine ⟨?_, ?_⟩
    · rw [Function.iterate_succ_apply, hup]
      exact h.back
    · have := h.depth_eq
      simp only [hlength]
      omega
  | none => exact inside_climb w.depth w.cursor h.back h.depth_eq

theorem inside_moved (c : Cursor) (k : Nat) : (advance^[k] (start c)).Inside c := by
  induction k with
  | zero => exact inside_start c
  | succ k ih =>
    rw [Function.iterate_succ_apply']
    exact ih.advance

/-! ## Runs -/

theorem pending_ne_nil (h : w.done = false) : w.pending ≠ [] := by
  rw [pending_advance w h]
  exact List.cons_ne_nil _ _

theorem done_iff (w : Walk) : w.done = true ↔ w.pending = [] := by
  constructor
  · exact pending_of_done
  · intro h
    by_contra hdone
    exact pending_ne_nil (by simpa using hdone) h

/-- **After `k` moves the first `k` nodes are visited** (a run of moves). -/
theorem pending_moved (c : Cursor) {k : Nat} (hk : k ≤ c.focus.size) :
    (advance^[k] (start c)).pending = c.focus.nodes.drop k := by
  induction k with
  | zero => exact pending_start c
  | succ k ih =>
    have hlast := ih (by omega)
    have hlength := c.focus.length_nodes
    -- a node is still to visit, so the walk goes on, and the move drops this node
    have hdone : (advance^[k] (start c)).done = false := by
      rw [Bool.eq_false_iff, ne_eq, done_iff, hlast, List.drop_eq_nil_iff]
      omega
    rw [pending_advance _ hdone] at hlast
    rw [Function.iterate_succ_apply', ← List.tail_drop, ← hlast, List.tail_cons]

theorem done_moved (c : Cursor) {k : Nat} (hk : k ≤ c.focus.size) :
    (advance^[k] (start c)).done = true ↔ k = c.focus.size := by
  have hlength := c.focus.length_nodes
  rw [done_iff, pending_moved c hk, List.drop_eq_nil_iff]
  omega

/-- The node on which the cursor stands after `k` moves is the one at place `k` in pre-order. -/
theorem focus_moved (c : Cursor) {k : Nat} (hk : k < c.focus.size) :
    c.focus.nodes[k]? = some (advance^[k] (start c)).cursor.focus := by
  have hdone : (advance^[k] (start c)).done = false := by
    rw [Bool.eq_false_iff, ne_eq, done_moved c (Nat.le_of_lt hk)]
    omega
  have hpending := pending_moved c (Nat.le_of_lt hk)
  rw [pending_advance _ hdone] at hpending
  rw [← List.head?_drop, ← hpending]
  rfl

/-- A place tells how many nodes are still to visit, so no place is visited twice. -/
theorem cursor_moved_inj (c : Cursor) {i j : Nat} (hi : i < c.focus.size) (hj : j < c.focus.size)
    (h : (advance^[i] (start c)).cursor = (advance^[j] (start c)).cursor) : i = j := by
  -- a cursor by itself does not tell the depth, but how far it is below the top does
  have hdepth : (advance^[i] (start c)).depth = (advance^[j] (start c)).depth := by
    have hi' := (inside_moved c i).depth_eq
    have hj' := (inside_moved c j).depth_eq
    rw [h] at hi'
    omega
  have hpending : (advance^[i] (start c)).pending = (advance^[j] (start c)).pending := by
    have hdone : (advance^[i] (start c)).done = (advance^[j] (start c)).done := by
      rw [Bool.eq_iff_iff, done_moved c (Nat.le_of_lt hi), done_moved c (Nat.le_of_lt hj)]
      omega
    unfold pending
    rw [h, hdepth, hdone]
  have hlength := congrArg List.length hpending
  rw [pending_moved c (Nat.le_of_lt hi), pending_moved c (Nat.le_of_lt hj), List.length_drop,
    List.length_drop, c.focus.length_nodes] at hlength
  omega

/-- **An iterator hands out the named nodes of its subtree in pre-order**, the start included when it
is named, one with each call, and nothing in any call after that. The walk behind it is done after as
many moves as there are nodes. Until then it stands on the nodes one after another, each time at a
different place, and the start is as far above it as the depth says: it never leaves the subtree,
whatever siblings and parents the start has. -/
theorem iterates_preorder (c : Cursor) :
    (∀ n, (start c).nth n = c.focus.named[n]?) ∧ descendants c.focus = c.focus.named ∧
    (∀ k ≤ c.focus.size, ((advance^[k] (start c)).done = true ↔ k = c.focus.size)) ∧
    (∀ k < c.focus.size, c.focus.nodes[k]? = some (advance^[k] (start c)).cursor.focus) ∧
    (∀ k, (advance^[k] (start c)).Inside c) ∧
    ∀ i < c.focus.size, ∀ j < c.focus.size,
      (advance^[i] (start c)).cursor = (advance^[j] (start c)).cursor → i = j := by
  refine ⟨?_, descendants_eq_named c.focus, fun k hk => done_moved c hk, fun k hk => focus_moved c hk,
    inside_moved c, fun i hi j hj => cursor_moved_inj c hi hj⟩
  intro n
  rw [nth_eq, outstanding_start]

end Walk

end RubyLint
