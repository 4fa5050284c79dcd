import Mathlib.Data.List.Forall2
import RubyLint.Proofs.Numbering

/-!
# Where items come from

Reading a syntax tree leaves nodes out and keeps the others in place. Every item comes from one node,
with the range of that node, and the items inside it come from children of that node in the same
order.

* `Origin`: an item and the node it comes from.
* `IsReading`, `isReading_ofTree`: what the two have in common.
* `readings_ofRoot`: **the items of a file read nodes of its tree**, both in pre-order.
-/

namespace RubyLint

theorem Tree.nodes_eq (t : Tree) : t.nodes = t :: nodesAll t.children := by
  cases t; rw [nodes]; rfl

namespace Item

variable {source : Source} {s : Item} {n : Tree}

/-- An item comes from a node: by reading the node, or as a constant among the targets of an
assignment, of which only the name is read. -/
inductive Origin (source : Source) : Item → Tree → Prop
  | node (n : Tree) : Origin source (ofTree source n) n
  | target (name : String) (n : Tree) : Origin source (mk (.assign name) n.span []) n

theorem origin_ofChildren (source : Source) (ns : List Tree) :
    List.SublistForall₂ (Origin source) (ofChildren source ns) ns := by
  induction ns with
  | nil => rw [ofChildren]; exact .nil
  | cons n ns ih =>
    rw [ofChildren]
    split
    · exact .cons (.node n) ih
    · exact .cons_right ih

theorem origin_ofCallParts (source : Source) (ns : List Tree) :
    List.SublistForall₂ (Origin source) (ofCallParts source ns) ns := by
  induction ns with
  | nil => rw [ofCallParts]; exact .nil
  | cons n ns ih =>
    rw [ofCallParts]
    split
    · exact .cons (.node n) ih
    · exact .cons_right ih

theorem origin_ofTargets (source : Source) (ns : List Tree) :
    List.SublistForall₂ (Origin source) (ofTargets source ns) ns := by
  induction ns with
  | nil => rw [ofTargets]; exact .nil
  | cons n ns ih =>
    rw [ofTargets]
    split
    · split
      · exact .cons (.target _ n) ih
      · exact .cons (.node n) ih
    · exact .cons_right ih

theorem origin_ofField (source : Source) (f : Field) (ns : List Tree) :
    List.SublistForall₂ (Origin source) (ofField source f ns) ns := by
  induction ns with
  | nil => rw [ofField]; exact .nil
  | cons n ns ih =>
    rw [ofField]
    split
    · exact .cons (.node n) .nil
    · exact .cons_right ih

theorem length_ofField_le (source : Source) (f : Field) (ns : List Tree) :
    (ofField source f ns).length ≤ 1 := by
  induction ns with
  | nil => rw [ofField]; exact Nat.zero_le 1
  | cons n ns ih =>
    rw [ofField]
    split
    · exact Nat.le_refl 1
    · exact ih

/-- What an item and the node that it reads have in common: the range, and the order of what is
inside. A use of a constant has at most one item inside it. -/
structure IsReading (source : Source) (s : Item) (n : Tree) : Prop where
  span_eq : s.span = n.span
  inner : List.SublistForall₂ (Origin source) s.children n.children
  single : ∀ name rooted, s.label = .reference name rooted → s.children.length ≤ 1

/-- **What reading a node gives**, whatever the kind of the node. -/
theorem isReading_ofTree (source : Source) (n : Tree) : IsReading source (ofTree source n) n := by
  obtain ⟨info, ns⟩ := n
  rw [ofTree]
  split
  · exact ⟨rfl, origin_ofChildren source ns, nofun⟩
  · exact ⟨rfl, origin_ofChildren source ns, nofun⟩
  · split
    · exact ⟨rfl, origin_ofField source .right ns, nofun⟩
    · exact ⟨rfl, origin_ofChildren source ns, nofun⟩
  · split
    · exact ⟨rfl, origin_ofField source .right ns, nofun⟩
    · exact ⟨rfl, origin_ofChildren source ns, nofun⟩
  · exact ⟨rfl, origin_ofTargets source ns, nofun⟩
  · exact ⟨rfl, origin_ofTargets source ns, nofun⟩
  · exact ⟨rfl, .nil, fun _ _ _ => Nat.zero_le 1⟩
  · exact ⟨rfl, origin_ofField source .scope ns,
      fun _ _ _ => length_ofField_le source .scope ns⟩
  · exact ⟨rfl, origin_ofCallParts source ns, nofun⟩
  · exact ⟨rfl, origin_ofChildren source ns, nofun⟩

theorem Origin.isReading (h : Origin source s n) : IsReading source s n := by
  cases h with
  | node => exact isReading_ofTree source n
  | target => exact ⟨rfl, .nil, nofun⟩

theorem isReading_ofRoot (source : Source) (root : Tree) :
    IsReading source (ofRoot source root) root :=
  ⟨rfl, origin_ofChildren source root.children, nofun⟩

/-- Items have the ranges of the nodes that they read. -/
theorem spans_sublist {ts : List Item} {ns : List Tree}
    (h : List.SublistForall₂ (IsReading source) ts ns) :
    (ts.map Item.span).Sublist (ns.map Tree.span) := by
  induction h with
  | nil => exact List.nil_sublist _
  | cons hreading _ ih =>
    rw [List.map_cons, List.map_cons, hreading.span_eq]
    exact ih.cons_cons _
  | cons_right _ ih => exact ih.cons _

theorem isReading_of_origins {ts : List Item} {ns : List Tree}
    (h : List.SublistForall₂ (Origin source) ts ns) :
    List.SublistForall₂ (IsReading source) ts ns := by
  induction h with
  | nil => exact .nil
  | cons horigin _ ih => exact .cons horigin.isReading ih
  | cons_right _ ih => exact .cons_right ih

/-- The ranges inside an item are ranges inside its node, in the same order. -/
theorem IsReading.spans_sublist (h : IsReading source s n) :
    (s.children.map Item.span).Sublist (n.children.map Tree.span) :=
  Item.spans_sublist (isReading_of_origins h.inner)

section Related

variable {α β : Type} {R : α → β → Prop} {l l' : List α} {r r' : List β}

theorem sublistForall₂_append (h : List.SublistForall₂ R l r) (h' : List.SublistForall₂ R l' r') :
    List.SublistForall₂ R (l ++ l') (r ++ r') := by
  induction h with
  | @nil r =>
    induction r with
    | nil => exact h'
    | cons b r ih => exact .cons_right ih
  | cons hab _ ih => exact .cons hab ih
  | cons_right _ ih => exact .cons_right ih

theorem exists_of_mem_sublistForall₂ {a : α} (h : List.SublistForall₂ R l r) (ha : a ∈ l) :
    ∃ b ∈ r, R a b := by
  induction h with
  | nil => cases ha
  | cons hab _ ih =>
    rcases List.mem_cons.1 ha with rfl | ha
    · exact ⟨_, List.mem_cons_self, hab⟩
    · obtain ⟨b, hb, hrelated⟩ := ih ha
      exact ⟨b, List.mem_cons_of_mem _ hb, hrelated⟩
  | cons_right _ ih =>
    obtain ⟨b, hb, hrelated⟩ := ih ha
    exact ⟨b, List.mem_cons_of_mem _ hb, hrelated⟩

end Related

mutual
/-- The items inside the item of a node come from the nodes below it, in the same order. -/
theorem origins_ofTree (source : Source) : ∀ n : Tree,
    List.SublistForall₂ (Origin source) (ofTree source n).items n.nodes
  | .node info ns => by
    have hinner := (isReading_ofTree source (.node info ns)).inner
    rw [items_eq, Tree.nodes_eq]
    exact .cons (.node _) (origins_itemsAll source ns hinner)
theorem origins_itemsAll (source : Source) : ∀ (ns : List Tree) {ts : List Item},
    List.SublistForall₂ (Origin source) ts ns →
      List.SublistForall₂ (Origin source) (itemsAll ts) (Tree.nodesAll ns)
  | [], ts, h => by cases h; rw [itemsAll]; exact .nil
  | n :: ns, ts, h => by
    rw [Tree.nodesAll]
    cases h with
    | nil => rw [itemsAll]; exact .nil
    | cons_right h => exact sublistForall₂_append .nil (origins_itemsAll source ns h)
    | cons horigin h =>
      rw [itemsAll]
      refine sublistForall₂_append ?_ (origins_itemsAll source ns h)
      cases horigin with
      | node => exact origins_ofTree source n
      | target name =>
        rw [items_eq, Tree.nodes_eq]
        exact .cons (.target name n) .nil
end

/-- **The items of a file read nodes of its tree**, in pre-order as these are. -/
theorem readings_ofRoot (source : Source) (root : Tree) :
    List.SublistForall₂ (IsReading source) (ofRoot source root).items root.nodes := by
  have hreading := isReading_ofRoot source root
  rw [items_eq, Tree.nodes_eq]
  exact .cons hreading (isReading_of_origins (origins_itemsAll source root.children hreading.inner))

/-- Every item of a file reads a node of its tree. -/
theorem exists_isReading (source : Source) (root : Tree) (hs : s ∈ (ofRoot source root).items) :
    ∃ n ∈ root.nodes, IsReading source s n :=
  exists_of_mem_sublistForall₂ (readings_ofRoot source root) hs

end Item

end RubyLint
