import RubyLint.Outline.Basic

/-!
# Numbers of an outline

An outline numbers the items of a file in pre-order. Each number belongs to one item, and all of that
item is found right behind it in the table.

* `Item.items`: the items of an item in pre-order.
* `Outline.Holds`: an item stands in an outline at a number; `Holds.node` and `Holds.inner` open this
  for the item itself and for the items inside it.
* `Holds.at_items`, `exists_holds`: **every number belongs to an item**, whose parent has a smaller
  number.
* `preorder_ofItem`: **a traversal visits the numbers in order**, each of them once.
-/

namespace RubyLint

namespace Item

/-- What an item is. -/
def label : Item → Label
  | mk label _ _ => label

/-- The range of an item. -/
def span : Item → Span
  | mk _ span _ => span

/-- The items right inside an item. -/
def children : Item → List Item
  | mk _ _ children => children

mutual
/-- All items of an item in pre-order, itself first. -/
def items : Item → List Item
  | mk label span children => mk label span children :: itemsAll children
/-- All items of several in pre-order. -/
def itemsAll : List Item → List Item
  | [] => []
  | t :: ts => t.items ++ itemsAll ts
end

/-- The node of an item that is numbered `start`. -/
def node (parent : Option Nat) (start : Nat) (t : Item) : Outline.Node where
  role := t.label.role t.children (numbers (start + 1) t.children)
  parent := parent
  children := numbers (start + 1) t.children
  span := t.span

theorem flatten_eq (parent : Option Nat) (start : Nat) (t : Item) :
    t.flatten parent start = t.node parent start :: flattenAll start (start + 1) t.children := by
  cases t; rw [flatten]; rfl

theorem items_eq (t : Item) : t.items = t :: itemsAll t.children := by
  cases t; rw [items]; rfl

theorem count_eq (t : Item) : t.count = 1 + countAll t.children := by
  cases t; rw [count]; rfl

mutual
theorem length_flatten (parent : Option Nat) (start : Nat) :
    ∀ t : Item, (t.flatten parent start).length = t.count
  | mk _ _ children => by
    rw [flatten, count, List.length_cons, length_flattenAll, Nat.add_comm]
theorem length_flattenAll (parent start : Nat) :
    ∀ ts : List Item, (flattenAll parent start ts).length = countAll ts
  | [] => by rw [flattenAll, countAll]; rfl
  | t :: ts => by
    rw [flattenAll, countAll, List.length_append, length_flatten, length_flattenAll]
end

mutual
theorem length_items : ∀ t : Item, t.items.length = t.count
  | mk _ _ children => by rw [items, count, List.length_cons, length_itemsAll, Nat.add_comm]
theorem length_itemsAll : ∀ ts : List Item, (itemsAll ts).length = countAll ts
  | [] => by rw [itemsAll, countAll]; rfl
  | t :: ts => by rw [itemsAll, countAll, List.length_append, length_items, length_itemsAll]
end

end Item

namespace Outline

open Item

variable {o : Outline} {parent : Option Nat} {start outer : Nat} {t s : Item} {ts : List Item}

/-- **An item stands in an outline** at the number `start`, in the node `parent`: its nodes are a
stretch of the table. -/
def Holds (o : Outline) (parent : Option Nat) (start : Nat) (t : Item) : Prop :=
  ∃ before after, o.nodes.toList = before ++ (t.flatten parent start ++ after) ∧
    before.length = start

/-- Items stand side by side in an outline from the number `start` on, in the node `outer`. -/
def HoldsAll (o : Outline) (outer start : Nat) (ts : List Item) : Prop :=
  ∃ before after, o.nodes.toList = before ++ (flattenAll outer start ts ++ after) ∧
    before.length = start

theorem holds_ofItem (t : Item) : (ofItem t).Holds none 0 t :=
  ⟨[], [], by simp [ofItem], rfl⟩

theorem size_ofItem (t : Item) : (ofItem t).size = t.count := by
  simp [size, ofItem, length_flatten]

/-- The item at a number is the node there. -/
theorem Holds.node (h : o.Holds parent start t) :
    o.nodes[start]? = some (t.node parent start) := by
  obtain ⟨before, after, hnodes, rfl⟩ := h
  rw [← Array.getElem?_toList, hnodes, flatten_eq]
  simp

/-- The items inside it follow it. -/
theorem Holds.inner (h : o.Holds parent start t) : o.HoldsAll start (start + 1) t.children := by
  obtain ⟨before, after, hnodes, hstart⟩ := h
  refine ⟨before ++ [t.node parent start], after, ?_, by simp [hstart]⟩
  rw [hnodes, flatten_eq]
  simp

theorem HoldsAll.head (h : o.HoldsAll outer start (t :: ts)) : o.Holds (some outer) start t := by
  obtain ⟨before, after, hnodes, hstart⟩ := h
  refine ⟨before, flattenAll outer (start + t.count) ts ++ after, ?_, hstart⟩
  rw [hnodes, flattenAll, List.append_assoc]

theorem HoldsAll.tail (h : o.HoldsAll outer start (t :: ts)) :
    o.HoldsAll outer (start + t.count) ts := by
  obtain ⟨before, after, hnodes, hstart⟩ := h
  refine ⟨before ++ t.flatten (some outer) start, after, ?_, ?_⟩
  · rw [hnodes, flattenAll, List.append_assoc, List.append_assoc]
  · rw [List.length_append, length_flatten, hstart]

theorem Holds.role_eq (h : o.Holds parent start t) :
    o.role start = t.label.role t.children (numbers (start + 1) t.children) := by
  unfold role; rw [h.node]; rfl

theorem Holds.parent?_eq (h : o.Holds parent start t) : o.parent? start = parent := by
  unfold parent?; rw [h.node]; rfl

theorem Holds.children_eq (h : o.Holds parent start t) :
    o.children start = numbers (start + 1) t.children := by
  unfold Outline.children; rw [h.node]; rfl

theorem Holds.span_eq (h : o.Holds parent start t) : o.span start = t.span := by
  unfold Outline.span; rw [h.node]; rfl

mutual
/-- **Every number belongs to an item.** The `i`-th item inside `t` is `i` numbers behind it, and its
parent, unless it is `t` itself, is between the two. -/
theorem Holds.at_items {i : Nat} : ∀ {t : Item} {parent : Option Nat} {start : Nat},
    o.Holds parent start t → t.items[i]? = some s →
      (i = 0 ∧ s = t) ∨ ∃ p, start ≤ p ∧ p < start + i ∧ o.Holds (some p) (start + i) s
  | .mk label span children, parent, start, h, hs => by
    rw [items_eq] at hs
    cases i with
    | zero => exact Or.inl ⟨rfl, by simpa using hs.symm⟩
    | succ i =>
      rw [List.getElem?_cons_succ] at hs
      obtain ⟨p, hle, hlt, hp⟩ := HoldsAll.at_items h.inner (Nat.lt_succ_self start) hs
      rw [Nat.add_assoc, Nat.add_comm 1 i] at hlt hp
      exact Or.inr ⟨p, hle, hlt, hp⟩
theorem HoldsAll.at_items {i : Nat} : ∀ {ts : List Item} {outer start : Nat},
    o.HoldsAll outer start ts → outer < start → (itemsAll ts)[i]? = some s →
      ∃ p, outer ≤ p ∧ p < start + i ∧ o.Holds (some p) (start + i) s
  | [], _, _, _, _, hs => by rw [itemsAll] at hs; cases hs
  | t :: ts, outer, start, h, hlt, hs => by
    rw [itemsAll] at hs
    rcases Nat.lt_or_ge i t.items.length with hi | hi
    · rw [List.getElem?_append_left hi] at hs
      rcases h.head.at_items hs with ⟨rfl, rfl⟩ | ⟨p, hle, hp⟩
      · exact ⟨outer, Nat.le_refl _, hlt, h.head⟩
      · exact ⟨p, by omega, hp⟩
    · rw [List.getElem?_append_right hi] at hs
      rw [length_items] at hs hi
      obtain ⟨p, hle, hp⟩ := h.tail.at_items (by omega) hs
      rw [Nat.add_assoc, Nat.add_sub_of_le hi] at hp
      exact ⟨p, hle, hp⟩
end

/-- The item of a number, and where it stands. -/
theorem exists_holds {id : Nat} (t : Item) (h : id < (ofItem t).size) :
    ∃ parent item, t.items[id]? = some item ∧ (ofItem t).Holds parent id item ∧
      ∀ p, parent = some p → p < id := by
  rw [size_ofItem, ← length_items] at h
  refine ⟨(ofItem t).parent? id, t.items[id], List.getElem?_eq_getElem h, ?_⟩
  rcases (holds_ofItem t).at_items (List.getElem?_eq_getElem h) with ⟨rfl, hitem⟩ | ⟨p, -, hlt, hp⟩
  · rw [hitem, (holds_ofItem t).parent?_eq]
    exact ⟨holds_ofItem t, fun p hp => by cases hp⟩
  · rw [Nat.zero_add] at hlt hp
    rw [hp.parent?_eq]
    exact ⟨hp, fun q hq => by cases hq; exact hlt⟩

mutual
theorem Holds.visit_eq (n : Nat) (stack : List Nat) : ∀ {t : Item} {parent : Option Nat} {start : Nat},
    o.Holds parent start t →
      o.visit (t.count + n) (start :: stack) = List.range' start t.count ++ o.visit n stack
  | .mk label span children, parent, start, h => by
    rw [count_eq, Nat.add_comm 1, Nat.add_right_comm, visit, h.children_eq,
      h.inner.visit_eq n stack, List.range'_succ]
    rfl
theorem HoldsAll.visit_eq (n : Nat) (stack : List Nat) : ∀ {ts : List Item} {outer start : Nat},
    o.HoldsAll outer start ts →
      o.visit (countAll ts + n) (numbers start ts ++ stack) =
        List.range' start (countAll ts) ++ o.visit n stack
  | [], _, _, _ => by rw [countAll, numbers, Nat.zero_add]; rfl
  | t :: ts, outer, start, h => by
    rw [countAll, numbers, List.cons_append, Nat.add_assoc,
      h.head.visit_eq (countAll ts + n) (numbers (start + t.count) ts ++ stack),
      h.tail.visit_eq n stack, ← List.append_assoc, List.range'_append_1]
end

/-- **A traversal visits the numbers in order**, each of them once. -/
theorem preorder_ofItem (t : Item) : (ofItem t).preorder = List.range (ofItem t).size := by
  have h := (holds_ofItem t).visit_eq 0 []
  have hne : (ofItem t).nodes.isEmpty = false := by
    simp [ofItem, flatten_eq]
  unfold preorder
  rw [hne, size_ofItem, List.range_eq_range']
  simpa [visit] using h

end Outline

end RubyLint
