import Mathlib.Data.List.Forall2
import Mathlib.Data.List.Nodup
import RubyLint.Proofs.Chains

/-!
# Outlines are well numbered

The outline of a file is a tree in a table: every number but that of the file itself stands in one
list of children, that of its parent, and a traversal takes the numbers in order. Each node of the
syntax tree that is read adds one child to the node it is read into.

* `WellNumbered`: how parents, children, traversal and ancestors fit together; `wellNumbered_ofItem`:
  so they do in every outline.
* `Item.parts`, `Item.reading`: what is read of a syntax node, and how a node is read in its place.
* `Outline.ReadsAt`: a number is that of a syntax node that was read.
* `Outline.wellNumbered_ofTree`: **the outline of every file is well numbered, one child for each node
  that is read.**
-/

namespace RubyLint

namespace Item

theorem count_pos (t : Item) : 0 < t.count := by
  rw [count_eq]; omega

theorem le_of_mem_numbers {start id : Nat} {ts : List Item} (h : id ∈ numbers start ts) :
    start ≤ id := by
  induction ts generalizing start with
  | nil => cases h
  | cons t ts ih =>
    rcases List.mem_cons.1 h with rfl | h
    · exact Nat.le_refl _
    · have := ih h; omega

theorem numbers_increasing (start : Nat) (ts : List Item) :
    (numbers start ts).Pairwise (· < ·) := by
  induction ts generalizing start with
  | nil => exact .nil
  | cons t ts ih =>
    refine List.pairwise_cons.2 ⟨fun id h => ?_, ih _⟩
    have := le_of_mem_numbers h
    have := t.count_pos
    omega

end Item

namespace Outline

open Item

variable {o : Outline} {id p outer start : Nat} {ts : List Item}

/-- **The numbers of an outline fit its links.** -/
structure WellNumbered (o : Outline) : Prop where
  /-- There is a file, and only the file itself has no parent. -/
  size_pos : 0 < o.size
  root_iff : ∀ id < o.size, o.parent? id = none ↔ id = 0
  /-- Parents come first. -/
  parent_lt : ∀ id p, o.parent? id = some p → p < id
  /-- A node is a child of its parent, and of no other node. -/
  mem_children_iff : ∀ id p, id ∈ o.children p ↔ o.parent? id = some p
  /-- Every other node stands once among all lists of children. -/
  once : ∀ id, 0 < id → id < o.size → ((List.range o.size).flatMap o.children).count id = 1
  increasing : ∀ id, (o.children id).Pairwise (· < ·)
  /-- A traversal takes the numbers in order, and has then nothing left to visit. -/
  preorder_eq : o.preorder = List.range o.size
  visit_eq : ∀ n, o.visit (o.size + n) [0] = List.range o.size
  /-- Going from parent to parent ends at the file. -/
  ancestors_chain : ∀ id, (id :: o.ancestors id).IsChain fun a b => o.parent? a = some b
  ancestors_end : ∀ id < o.size, (id :: o.ancestors id).getLast? = some 0

theorem HoldsAll.parent?_of_mem (h : o.HoldsAll outer start ts) (hid : id ∈ numbers start ts) :
    o.parent? id = some outer := by
  induction ts generalizing start with
  | nil => cases hid
  | cons t ts ih =>
    rcases List.mem_cons.1 hid with rfl | hid
    · exact h.head.parent?_eq
    · exact ih h.tail hid

theorem lt_size_of_mem_children (h : id ∈ o.children p) : p < o.size := by
  by_contra hge
  have hnone : o.nodes[p]? = none := Array.getElem?_eq_none (Nat.le_of_not_lt hge)
  unfold Outline.children at h; rw [hnone] at h; cases h

/-- What stands in the list of children of a node has that node as its parent. -/
theorem parent?_of_mem_children (t : Item) (h : id ∈ (ofItem t).children p) :
    (ofItem t).parent? id = some p := by
  obtain ⟨parent, item, -, hholds, -⟩ := exists_holds t (lt_size_of_mem_children h)
  rw [hholds.children_eq] at h
  exact hholds.inner.parent?_of_mem h

/-- A traversal visits what it has to visit and children of nodes. -/
theorem mem_of_mem_visit {n : Nat} {stack : List Nat} (h : id ∈ o.visit n stack) :
    id ∈ stack ∨ ∃ p, id ∈ o.children p := by
  induction n generalizing stack with
  | zero => cases h
  | succ n ih =>
    cases stack with
    | nil => cases h
    | cons top stack =>
      rcases List.mem_cons.1 h with rfl | h
      · exact Or.inl List.mem_cons_self
      · rcases ih h with h | h
        · rcases List.mem_append.1 h with h | h
          · exact Or.inr ⟨top, h⟩
          · exact Or.inl (List.mem_cons_of_mem _ h)
        · exact Or.inr h

/-- Every number but that of the file stands in a list of children. -/
theorem exists_mem_children (t : Item) (hid : 0 < id) (hsize : id < (ofItem t).size) :
    ∃ p, id ∈ (ofItem t).children p := by
  have hmem : id ∈ (ofItem t).preorder := by rw [preorder_ofItem]; exact List.mem_range.2 hsize
  unfold preorder at hmem
  split at hmem
  · cases hmem
  · rcases mem_of_mem_visit hmem with h | h
    · rw [List.mem_singleton] at h; omega
    · exact h

/-- Ancestors are parents of parents. -/
theorem isChain_ancestorsWithin (o : Outline) (n id : Nat) :
    (id :: o.ancestorsWithin n id).IsChain fun a b => o.parent? a = some b := by
  induction n generalizing id with
  | zero => exact .singleton id
  | succ n ih =>
    unfold ancestorsWithin
    split
    · rename_i p hp; exact .cons_cons hp (ih p)
    · exact .singleton id

/-- With more rounds than its number, going from parent to parent ends where there is no parent. -/
theorem getLast?_ancestorsWithin (hroot : ∀ id < o.size, o.parent? id = none → id = 0)
    (hlt : ∀ id p, o.parent? id = some p → p < id) {n : Nat} (hn : id < n) (hsize : id < o.size) :
    (id :: o.ancestorsWithin n id).getLast? = some 0 := by
  induction n generalizing id with
  | zero => omega
  | succ n ih =>
    unfold ancestorsWithin
    split
    · rename_i p hp
      have := hlt id p hp
      rw [List.getLast?_cons_cons]
      exact ih (by omega) (by omega)
    · rename_i hp; rw [hroot id hsize hp]; rfl

/-- **Every outline is well numbered.** -/
theorem wellNumbered_ofItem (t : Item) : (ofItem t).WellNumbered := by
  have hsize : (ofItem t).size = t.count := size_ofItem t
  have hpos : 0 < (ofItem t).size := by rw [hsize]; exact t.count_pos
  have hparent : (ofItem t).parent? 0 = none := (holds_ofItem t).parent?_eq
  have hlt := (linked_ofItem t).parent_lt
  have hroot : ∀ id < (ofItem t).size, (ofItem t).parent? id = none → id = 0 := by
    intro id hid hnone
    by_contra hne
    obtain ⟨p, hp⟩ := exists_mem_children t (Nat.pos_of_ne_zero hne) hid
    rw [parent?_of_mem_children t hp] at hnone; cases hnone
  have hmem : ∀ id p, id ∈ (ofItem t).children p ↔ (ofItem t).parent? id = some p := by
    intro id p
    refine ⟨parent?_of_mem_children t, fun hp => ?_⟩
    obtain ⟨q, hq⟩ := exists_mem_children t (Nat.zero_lt_of_lt (hlt id p hp)) (lt_size_of_parent? hp)
    rw [parent?_of_mem_children t hq] at hp; cases hp; exact hq
  have hincreasing : ∀ id, ((ofItem t).children id).Pairwise (· < ·) := by
    intro id
    by_cases hid : id < (ofItem t).size
    · obtain ⟨parent, item, -, hholds, -⟩ := exists_holds t hid
      rw [hholds.children_eq]; exact numbers_increasing _ _
    · refine List.pairwise_of_forall_mem_list fun a ha => ?_
      exact absurd (lt_size_of_mem_children ha) hid
  refine ⟨hpos, fun id hid => ⟨hroot id hid, ?_⟩, hlt, hmem, ?_, hincreasing, preorder_ofItem t, ?_,
    fun id => isChain_ancestorsWithin _ _ id, fun id hid => getLast?_ancestorsWithin hroot hlt hid hid⟩
  · rintro rfl; exact hparent
  · intro id hid hsize
    refine List.count_eq_one_of_mem (List.nodup_flatMap.2 ⟨?_, ?_⟩) (List.mem_flatMap.2 ?_)
    · exact fun p _ => (hincreasing p).imp fun h => Nat.ne_of_lt h
    · -- two nodes with a common child would both be its parent
      refine List.nodup_range.imp fun {p q} hne x hp hq => hne ?_
      rw [hmem] at hp hq
      rw [hp] at hq; cases hq; rfl
    · obtain ⟨p, hp⟩ := exists_mem_children t hid hsize
      exact ⟨p, List.mem_range.2 (lt_size_of_mem_children hp), hp⟩
  · intro n
    have h := (holds_ofItem t).visit_eq n []
    have hrest : (ofItem t).visit n [] = [] := by cases n <;> rfl
    rw [hsize, h, hrest, List.append_nil, List.range_eq_range']

/-- Rounds beyond its number change nothing for the ancestors of a node. -/
theorem ancestorsWithin_eq (hlt : ∀ id p, o.parent? id = some p → p < id) {n : Nat} (hn : id ≤ n) :
    o.ancestorsWithin n id = o.ancestorsWithin id id := by
  induction id using Nat.strong_induction_on generalizing n with
  | _ id ih =>
    cases hp : o.parent? id with
    | none => cases n <;> cases id <;> simp [ancestorsWithin, hp]
    | some p =>
      have hpid := hlt id p hp
      obtain ⟨m, rfl⟩ : ∃ m, n = m + 1 := ⟨n - 1, by omega⟩
      obtain ⟨k, rfl⟩ : ∃ k, id = k + 1 := ⟨id - 1, by omega⟩
      simp only [ancestorsWithin, hp]
      rw [ih p hpid (by omega : p ≤ m), ih p hpid (by omega : p ≤ k)]

namespace WellNumbered

/-- The ancestors of a node are its parent and the ancestors of that one. -/
theorem ancestors_of_parent (h : o.WellNumbered) (hp : o.parent? id = some p) :
    o.ancestors id = p :: o.ancestors p := by
  have hlt := h.parent_lt id p hp
  have hsize := lt_size_of_parent? hp
  obtain ⟨m, hm⟩ : ∃ m, o.size = m + 1 := ⟨o.size - 1, by omega⟩
  have hid : o.ancestors id = p :: o.ancestorsWithin m p := by
    unfold ancestors; rw [hm, ancestorsWithin, hp]
  unfold ancestors at hid ⊢
  rw [hid, ancestorsWithin_eq h.parent_lt (by omega : p ≤ m),
    ancestorsWithin_eq h.parent_lt (by omega : p ≤ o.size)]

theorem ancestors_of_root (h : o.WellNumbered) (hp : o.parent? id = none) :
    o.ancestors id = [] := by
  obtain ⟨m, hm⟩ : ∃ m, o.size = m + 1 := ⟨o.size - 1, by have := h.size_pos; omega⟩
  unfold ancestors; rw [hm, ancestorsWithin, hp]

theorem exists_parent (h : o.WellNumbered) (hid : 0 < id) (hsize : id < o.size) :
    ∃ p, o.parent? id = some p := by
  rw [← Option.isSome_iff_exists, Option.isSome_iff_ne_none, Ne, h.root_iff id hsize]
  omega

end WellNumbered

end Outline

namespace Item

/-- A node whose children are targets of an assignment. -/
def holdsTargets (n : Tree) : Bool :=
  n.kind = .leftAssignmentList || n.kind = .destructuredLeftAssignment

/-- What is read of a syntax node, in source order: of an assignment to a constant the right side, of
a chain its qualifier, of a call all but a method named like a constant, of a constant nothing. -/
def parts (n : Tree) : List Tree :=
  match n.kind with
  | .assignment | .operatorAssignment =>
    if (n.child? .left).any (·.kind = .constant) then (n.child? .right).toList
    else n.namedChildren
  | .constant => []
  | .scopeResolution => (n.child? .scope).toList
  | .call => n.namedChildren.filter fun t => !(t.hasField .method && t.kind = .constant)
  | _ => n.namedChildren

/-- The item of a node in its place: among targets, a constant is assigned. -/
def reading (source : Source) (asTarget : Bool) (n : Tree) : Item :=
  if asTarget && n.kind = .constant then mk (.assign (source.text n.span)) n.span []
  else ofTree source n

theorem ofChildren_eq (source : Source) (ns : List Tree) :
    ofChildren source ns = (ns.filter (·.isNamed)).map (reading source false) := by
  induction ns with
  | nil => rw [ofChildren]; rfl
  | cons n ns ih => rw [ofChildren, ih]; by_cases hn : n.isNamed = true <;> simp [hn, reading]

theorem ofCallParts_eq (source : Source) (ns : List Tree) :
    ofCallParts source ns =
      ((ns.filter (·.isNamed)).filter fun t => !(t.hasField .method && t.kind = .constant)).map
        (reading source false) := by
  induction ns with
  | nil => rw [ofCallParts]; rfl
  | cons n ns ih =>
    rw [ofCallParts, ih, List.filter_filter, List.filter_filter, List.filter_cons]
    by_cases hn : (n.isNamed && !(n.hasField .method && n.kind = .constant)) = true
    · rw [if_pos hn, if_pos (by rw [Bool.and_comm]; exact hn)]; rfl
    · rw [if_neg hn, if_neg (by rw [Bool.and_comm]; exact hn)]

theorem ofTargets_eq (source : Source) (ns : List Tree) :
    ofTargets source ns = (ns.filter (·.isNamed)).map (reading source true) := by
  induction ns with
  | nil => rw [ofTargets]; rfl
  | cons n ns ih =>
    rw [ofTargets, ih]
    by_cases hn : n.isNamed = true <;> by_cases hc : n.kind = .constant <;> simp [hn, hc, reading]

theorem ofField_eq (source : Source) (f : Field) (ns : List Tree) :
    ofField source f ns = (ns.find? (·.hasField f)).toList.map (reading source false) := by
  induction ns with
  | nil => rw [ofField]; rfl
  | cons n ns ih => rw [ofField, ih]; by_cases hn : n.hasField f = true <;> simp [hn, reading]

theorem isSome_assigned? (source : Source) (n : Tree) :
    (assigned? source n.children).isSome = (n.child? .left).any (·.kind = .constant) := by
  unfold assigned? Tree.child?
  rw [Option.isSome_map]
  cases n.children.find? (·.hasField .left) with
  | none => rfl
  | some t => by_cases hc : t.kind = .constant <;> simp [hc]

theorem children_assignment (source : Source) (n : Tree)
    (h : n.kind = .assignment ∨ n.kind = .operatorAssignment) :
    (ofTree source n).children = (parts n).map (reading source false) := by
  have hparts : parts n = if (n.child? .left).any (·.kind = .constant) then
      (n.child? .right).toList else n.namedChildren := by
    unfold parts; rcases h with h | h <;> rw [h]
  have hitem : ofTree source n = (assigned? source n.children).elim
      (mk .other n.span (ofChildren source n.children))
      fun name => mk (.assign name) n.span (ofField source .right n.children) := by
    obtain ⟨info, ns⟩ := n
    rw [ofTree]
    rcases h with h | h
    all_goals
      change info.kind = _ at h
      rw [h]
      change _ = (assigned? source ns).elim _ _
      cases assigned? source ns <;> rfl
  rw [hitem, hparts, ← isSome_assigned? source n]
  cases assigned? source n.children with
  | some name => exact ofField_eq source .right n.children
  | none => exact ofChildren_eq source n.children

/-- **Each part that is read of a node becomes one item inside the item of the node.** -/
theorem children_ofTree (source : Source) (n : Tree) :
    (ofTree source n).children = (parts n).map (reading source (holdsTargets n)) := by
  obtain ⟨⟨kind, span, named, isError, isMissing, hasError, field⟩, ns⟩ := n
  cases kind with
  | assignment => exact children_assignment source _ (Or.inl rfl)
  | operatorAssignment => exact children_assignment source _ (Or.inr rfl)
  | leftAssignmentList => rw [ofTree]; exact ofTargets_eq source ns
  | destructuredLeftAssignment => rw [ofTree]; exact ofTargets_eq source ns
  | constant => rw [ofTree]; rfl
  | scopeResolution => rw [ofTree]; exact ofField_eq source .scope ns
  | call => rw [ofTree]; exact ofCallParts_eq source ns
  | _ => rw [ofTree]; exact ofChildren_eq source ns

theorem children_reading (source : Source) (asTarget : Bool) (n : Tree) :
    (reading source asTarget n).children = (parts n).map (reading source (holdsTargets n)) := by
  unfold reading
  split
  · rename_i h
    have hkind : n.kind = .constant := by simpa using (Bool.and_eq_true_iff.1 h).2
    have hparts : parts n = [] := by unfold parts; rw [hkind]
    rw [hparts]; rfl
  · exact children_ofTree source n

theorem children_ofRoot (source : Source) (root : Tree) :
    (ofRoot source root).children = root.namedChildren.map (reading source false) :=
  ofChildren_eq source root.children

end Item

namespace Outline

open Item

variable {o : Outline} {source : Source} {id outer start : Nat}

/-- **A number is that of a syntax node that was read**: its nodes are those of the item of the syntax
node, in its place. -/
def ReadsAt (o : Outline) (source : Source) (id : Nat) (n : Tree) : Prop :=
  ∃ parent asTarget, o.Holds parent id (reading source asTarget n)

theorem HoldsAll.readsAt {asTarget : Bool} {ns : List Tree}
    (h : o.HoldsAll outer start (ns.map (reading source asTarget))) :
    List.Forall₂ (o.ReadsAt source) (numbers start (ns.map (reading source asTarget))) ns := by
  induction ns generalizing start with
  | nil => exact .nil
  | cons n ns ih => exact .cons ⟨some outer, asTarget, h.head⟩ (ih h.tail)

theorem exists_of_mem_forall₂ {ids : List Nat} {ns : List Tree}
    (h : List.Forall₂ (o.ReadsAt source) ids ns) (hid : id ∈ ids) : ∃ n, o.ReadsAt source id n := by
  induction h with
  | nil => cases hid
  | cons hn _ ih =>
    rcases List.mem_cons.1 hid with rfl | hid
    · exact ⟨_, hn⟩
    · exact ih hid

/-- Each part that is read of a node becomes one child of its number. -/
theorem ReadsAt.children {n : Tree} (h : o.ReadsAt source id n) :
    List.Forall₂ (o.ReadsAt source) (o.children id) (parts n) := by
  obtain ⟨parent, asTarget, h⟩ := h
  have hinner := h.inner
  rw [h.children_eq]
  rw [children_reading] at hinner ⊢
  exact hinner.readsAt

/-- **The outline of every file is well numbered, one child for each node that is read.** Below the
file itself these are its named children; below the number of a node they are the parts of the node;
and every number but that of the file is the number of a node. -/
theorem wellNumbered_ofTree (source : Source) (root : Tree) :
    (ofTree source root).WellNumbered ∧
    List.Forall₂ ((ofTree source root).ReadsAt source) ((ofTree source root).children 0)
      root.namedChildren ∧
    (∀ id n, (ofTree source root).ReadsAt source id n →
      List.Forall₂ ((ofTree source root).ReadsAt source) ((ofTree source root).children id)
        (parts n)) ∧
    ∀ id, 0 < id → id < (ofTree source root).size →
      ∃ n, (ofTree source root).ReadsAt source id n := by
  have hnumbered : (ofTree source root).WellNumbered := wellNumbered_ofItem (ofRoot source root)
  have hroot : List.Forall₂ ((ofTree source root).ReadsAt source)
      ((ofTree source root).children 0) root.namedChildren := by
    have hholds : (ofTree source root).Holds none 0 (ofRoot source root) := holds_ofItem _
    have hinner := hholds.inner
    rw [hholds.children_eq]
    rw [children_ofRoot] at hinner ⊢
    exact hinner.readsAt
  refine ⟨hnumbered, hroot, fun id n h => h.children, fun id => ?_⟩
  -- the parent of a number comes first, so it is the file or the number of a node already
  induction id using Nat.strong_induction_on with
  | _ id ih =>
    intro hid hsize
    obtain ⟨p, hp⟩ : ∃ p, (ofTree source root).parent? id = some p := by
      rw [← Option.isSome_iff_exists, Option.isSome_iff_ne_none, Ne, hnumbered.root_iff id hsize]
      omega
    have hlt := hnumbered.parent_lt id p hp
    have hmem := (hnumbered.mem_children_iff id p).2 hp
    rcases Nat.eq_zero_or_pos p with rfl | hpos
    · exact exists_of_mem_forall₂ hroot hmem
    · obtain ⟨n, hn⟩ := ih p hlt hpos (by omega)
      exact exists_of_mem_forall₂ hn.children hmem

end Outline

end RubyLint
