import RubyLint.Syntax.Walk
import RubyLint.Proofs.Origin

/-!
# Walks visit the tree in pre-order

The depth counter of a walk says how many of the nodes above the cursor belong to it. What it still
has to visit is therefore the tree under the cursor, and then the later siblings that these nodes
hold, from the inside out.

* `Walk.outstanding`: the named nodes a walk has still to hand out.
* `Walk.next_eq` (one call): a call hands out the first of them.
* `Walk.collect_eq` (a run of calls): together the calls hand out all of them.
* `descendants_eq_named`: **a walk yields the named nodes of its tree in pre-order.**
* `Tree.nodes_isInfix`: the nodes of a node of a tree are a stretch of its pre-order without a gap.
-/

namespace RubyLint

mutual
theorem Tree.length_nodes : ∀ t : Tree, t.nodes.length = t.size
  | node info children => by
    simp only [nodes, size, List.length_cons, length_nodesAll children]; omega
theorem Tree.length_nodesAll : ∀ ts : List Tree, (nodesAll ts).length = sizeAll ts
  | [] => rfl
  | t :: ts => by
    simp only [nodesAll, sizeAll, List.length_append, length_nodes t, length_nodesAll ts]
end

namespace Walk

variable {w : Walk}

theorem pending_of_done (h : w.done = true) : w.pending = [] := by
  unfold pending
  rw [if_pos h]

/-- The nodes that are still to be handed out. -/
def outstanding (w : Walk) : List Tree :=
  w.pending.filter (·.isNamed)

/-- **A call hands out the first of them and leaves the others.** -/
theorem next_eq (w : Walk) :
    w.next.1 = w.outstanding.head? ∧ w.next.2.outstanding = w.outstanding.tail := by
  fun_induction next w with
  | case1 w h =>
    have hnone : w.outstanding = [] := by
      unfold outstanding
      rw [pending_of_done h]
      rfl
    rw [hnone]
    exact ⟨rfl, rfl⟩
  | case2 w h hnamed =>
    have hfirst : w.outstanding = w.cursor.focus :: w.advance.outstanding := by
      unfold outstanding
      rw [pending_advance w (Bool.eq_false_iff.2 h), List.filter_cons_of_pos hnamed]
    rw [hfirst]
    exact ⟨rfl, rfl⟩
  | case3 w h hnamed ih =>
    have hsame : w.outstanding = w.advance.outstanding := by
      unfold outstanding
      rw [pending_advance w (Bool.eq_false_iff.2 h), List.filter_cons_of_neg hnamed]
    rw [hsame]
    exact ih

/-- **`n` calls together hand out the first `n` of them.** -/
theorem collect_eq (n : Nat) (w : Walk) : collect n w = w.outstanding.take n := by
  induction n generalizing w with
  | zero => rfl
  | succ n ih =>
    obtain ⟨hfirst, hothers⟩ := w.next_eq
    unfold collect
    cases hnext : w.next with
    | mk handed rest =>
      rw [hnext] at hfirst hothers
      cases houtstanding : w.outstanding with
      | nil =>
        rw [houtstanding] at hfirst
        cases hfirst
        rfl
      | cons t ts =>
        rw [houtstanding] at hfirst hothers
        cases hfirst
        have hrest : rest.outstanding = ts := hothers
        rw [List.take_succ_cons, ← hrest]
        exact congrArg _ (ih rest)

theorem pending_start (c : Cursor) : (start c).pending = c.focus.nodes := by
  have hbehind : behind 0 c.above = [] := by
    unfold behind
    rfl
  change c.focus.nodes ++ behind 0 c.above = c.focus.nodes
  rw [hbehind, List.append_nil]

theorem outstanding_start (c : Cursor) : (start c).outstanding = c.focus.named := by
  unfold outstanding
  rw [pending_start]
  rfl

end Walk

/-- **A walk yields the named nodes of its tree in pre-order**, each once. -/
theorem descendants_eq_named (t : Tree) : descendants t = t.named := by
  have hlength : t.named.length ≤ t.size := t.length_nodes ▸ List.length_filter_le _ _
  unfold descendants
  rw [Walk.collect_eq, Walk.outstanding_start]
  exact List.take_of_length_le hlength

theorem mem_nodes_of_mem_descendants {t n : Tree} (h : n ∈ descendants t) : n ∈ t.nodes := by
  rw [descendants_eq_named] at h
  exact List.mem_of_mem_filter h

namespace Tree

variable {n c : Tree}

theorem mem_nodes_self (t : Tree) : t ∈ t.nodes := by
  rw [nodes_eq]; exact List.mem_cons_self

mutual
/-- The nodes of a node of a tree stand together in the pre-order of the tree. -/
theorem nodes_isInfix : ∀ {t : Tree}, n ∈ t.nodes → n.nodes <:+: t.nodes
  | node info children, hn => by
    rw [nodes_eq] at hn
    rcases List.mem_cons.1 hn with rfl | hn
    · exact List.infix_rfl
    · rw [nodes_eq (node info children)]
      exact List.infix_cons (nodes_isInfix_all hn)
theorem nodes_isInfix_all : ∀ {ts : List Tree}, n ∈ nodesAll ts → n.nodes <:+: nodesAll ts
  | [], hn => by rw [nodesAll] at hn; cases hn
  | t :: ts, hn => by
    rw [nodesAll] at hn ⊢
    rcases List.mem_append.1 hn with hn | hn
    · exact (nodes_isInfix hn).trans (List.prefix_append _ _).isInfix
    · exact (nodes_isInfix_all hn).trans (List.suffix_append _ _).isInfix
end

theorem nodes_subset {t : Tree} (h : n ∈ t.nodes) : n.nodes ⊆ t.nodes :=
  (nodes_isInfix h).subset

theorem mem_nodesAll {ts : List Tree} (h : c ∈ ts) : c ∈ nodesAll ts := by
  induction ts with
  | nil => cases h
  | cons t ts ih =>
    rw [nodesAll]
    rcases List.mem_cons.1 h with rfl | h
    · exact List.mem_append_left _ c.mem_nodes_self
    · exact List.mem_append_right _ (ih h)

/-- A child of a node of a tree is a node of it. -/
theorem mem_nodes_of_child {t : Tree} (hn : n ∈ t.nodes) (hc : c ∈ n.children) : c ∈ t.nodes := by
  apply nodes_subset hn
  rw [nodes_eq]
  exact List.mem_cons_of_mem n (mem_nodesAll hc)

end Tree

end RubyLint
