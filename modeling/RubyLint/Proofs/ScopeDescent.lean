import RubyLint.Outline.Scope
import RubyLint.Proofs.Numbered

/-!
# Namespaces from the top down

The namespace around a node is looked up from the node: its ancestors are searched for the nearest
declaration, and the headers from there on are put together. A traversal can carry the namespace
along instead, from the root of the file down, and add a header when it enters a declaration.

* `Outline.scopes`: the traversal, with the namespace that it carries to each node.
* `WellNumbered.contextPath_segments`: the namespace around a node is all headers above it.
* `WellNumbered.contextPath_of_parent`, `WellNumbered.declarationPath_eq`: one step down.
* `scopes_ofTree`: **both ways give the same namespaces**, at every node of every file.
-/

namespace RubyLint

namespace Outline

variable {o : Outline} {id p : Nat} {segs : List String}

/-- The names that a node adds to the namespace for its children. -/
def opens (o : Outline) (id : Nat) : List String :=
  (o.declared? id).getD []

/-- The next `n` nodes of a traversal that still has to visit `stack`, each with the namespace that is
carried to it. -/
def descend (o : Outline) : Nat → List (Nat × NamePath) → List (Nat × NamePath)
  | 0, _ => []
  | _ + 1, [] => []
  | n + 1, (id, path) :: stack =>
    (id, path) :: o.descend n ((o.children id).map (fun c => (c, path.join (o.opens id))) ++ stack)

/-- **All nodes with their namespaces, from the top down.** -/
def scopes (o : Outline) : List (Nat × NamePath) :=
  o.descend o.size [(0, .root)]

namespace WellNumbered

theorem contextPath_of_root (ho : o.WellNumbered) (hp : o.parent? id = none) :
    o.contextPath id = .root := by
  unfold contextPath
  rw [ho.ancestors_of_root hp]
  rfl

theorem contextPath_of_undeclared (ho : o.WellNumbered) (hp : o.parent? id = some p)
    (hd : o.declared? p = none) : o.contextPath id = o.contextPath p := by
  unfold contextPath
  rw [ho.ancestors_of_parent hp, List.find?_cons_of_neg (by simp [hd])]

theorem contextPath_of_declared (ho : o.WellNumbered) (hp : o.parent? id = some p)
    (hd : o.declared? p = some segs) : o.contextPath id = o.declarationPath p := by
  unfold contextPath
  rw [ho.ancestors_of_parent hp, List.find?_cons_of_pos (by simp [hd])]

/-- **The namespace around a node** is made of the headers of all declarations above it. -/
theorem contextPath_segments (ho : o.WellNumbered) (id : Nat) :
    (o.contextPath id).segments = ((o.ancestors id).filterMap o.declared?).reverse.flatten := by
  induction id using Nat.strong_induction_on with
  | _ id ih =>
    cases hp : o.parent? id with
    | none =>
      rw [ho.contextPath_of_root hp, ho.ancestors_of_root hp]
      rfl
    | some p =>
      -- the search stops at the parent, or goes on from there
      rw [ho.ancestors_of_parent hp]
      cases hd : o.declared? p with
      | none =>
        rw [ho.contextPath_of_undeclared hp hd, ih p (ho.parent_lt id p hp),
          List.filterMap_cons_none hd]
      | some segs =>
        rw [ho.contextPath_of_declared hp hd]
        rfl

/-- A declaration opens the namespace around it, followed by its own header. -/
theorem declarationPath_eq (ho : o.WellNumbered) (hd : o.declared? id = some segs) :
    o.declarationPath id = (o.contextPath id).join segs := by
  unfold declarationPath NamePath.join
  rw [ho.contextPath_segments, List.filterMap_cons_some hd]
  simp

/-- **One step down**: the namespace around a child is that around its parent, followed by the header
of the parent. -/
theorem contextPath_of_parent (ho : o.WellNumbered) (hp : o.parent? id = some p) :
    o.contextPath id = (o.contextPath p).join (o.opens p) := by
  unfold opens
  cases hd : o.declared? p with
  | none =>
    rw [ho.contextPath_of_undeclared hp hd]
    simp [NamePath.join]
  | some segs =>
    rw [ho.contextPath_of_declared hp hd, ho.declarationPath_eq hd]
    rfl

/-- **The whole traversal**: when it carries the right namespaces to what it still has to visit, it
carries the right ones everywhere. -/
theorem descend_eq (ho : o.WellNumbered) {n : Nat} {stack : List (Nat × NamePath)}
    (hstack : ∀ x ∈ stack, x.2 = o.contextPath x.1) :
    o.descend n stack = (o.visit n (stack.map (·.1))).map fun id => (id, o.contextPath id) := by
  induction n generalizing stack with
  | zero => rfl
  | succ n ih =>
    cases stack with
    | nil => rfl
    | cons top stack =>
      obtain ⟨id, path⟩ := top
      obtain rfl : path = o.contextPath id := hstack (id, path) List.mem_cons_self
      have hnext : ∀ x ∈ (o.children id).map (fun c => (c, (o.contextPath id).join (o.opens id))) ++
          stack, x.2 = o.contextPath x.1 := by
        intro x hx
        rcases List.mem_append.1 hx with hx | hx
        · obtain ⟨c, hc, rfl⟩ := List.mem_map.1 hx
          exact (ho.contextPath_of_parent ((ho.mem_children_iff c id).1 hc)).symm
        · exact hstack x (List.mem_cons_of_mem _ hx)
      rw [descend, ih hnext, List.map_cons, visit, List.map_cons, List.map_append, List.map_map]
      simp [Function.comp_def]

end WellNumbered

/-- **Namespaces from the top down and from the bottom up agree.** The traversal of a file carries to
every node, each of them once, exactly the namespace that the ancestors of the node give; and what it
carries to a declaration, followed by the header, is the namespace that the declaration opens. -/
theorem scopes_ofTree (source : Source) (root : Tree) :
    (ofTree source root).scopes =
      (List.range (ofTree source root).size).map
        (fun id => (id, (ofTree source root).contextPath id)) ∧
    (∀ id path segs, (id, path) ∈ (ofTree source root).scopes →
      (ofTree source root).declared? id = some segs →
        (ofTree source root).declarationPath id = path.join segs) ∧
    ∀ id segs, (ofTree source root).declared? id = some segs →
      (ofTree source root).declarationPath id =
        ((ofTree source root).contextPath id).join segs := by
  set o := ofTree source root
  have ho : o.WellNumbered := wellNumbered_ofItem (Item.ofRoot source root)
  have hscopes : o.scopes = (List.range o.size).map fun id => (id, o.contextPath id) := by
    have htop : o.contextPath 0 = .root :=
      ho.contextPath_of_root ((ho.root_iff 0 ho.size_pos).2 rfl)
    have hvisit : o.visit o.size [0] = List.range o.size := ho.visit_eq 0
    have hstack : ∀ x ∈ [(0, NamePath.root)], x.2 = o.contextPath x.1 := by
      intro x hx
      rw [List.mem_singleton.1 hx, htop]
    unfold scopes
    rw [ho.descend_eq hstack, List.map_singleton, hvisit]
  refine ⟨hscopes, fun id path segs hmem hd => ?_, fun id segs hd => ho.declarationPath_eq hd⟩
  rw [hscopes] at hmem
  obtain ⟨id', -, heq⟩ := List.mem_map.1 hmem
  cases heq
  exact ho.declarationPath_eq hd

end Outline

end RubyLint
