import Mathlib
import RubyLint.Proofs.ScopeDescent
import RubyLint.Proofs.ScopeWalk

/-!
# Where a definition really is

A header with a leading `::`, as in `class ::X`, declares its name at the root, whatever namespaces
stand around it. The resolver goes by these namespaces all the same: for a definition that such a
header takes out of them it gives a path that starts with names that do not belong to it.

* `Outline.definingScope`: the namespace in which a definition really defines its name.
* `Outline.cutOff`: the names around a definition that a leading `::` takes it out of.
* `WellNumbered.contextPath_eq_cutOff`: the namespace around a definition is these names, followed by
  the namespace in which it defines its name.
* `resolvesToDefined_iff`: **when resolved paths are those of definitions**: wherever a leading `::`
  takes a definition out of a namespace, the same name has to be defined in that namespace as well.
-/

namespace RubyLint

namespace NamePath

theorem join_join (d : NamePath) (l r : List String) : (d.join l).join r = d.join (l ++ r) := by
  simp [join]

theorem root_join (d : NamePath) : root.join d.segments = d := by
  simp [join, root]

theorem join_root (d : NamePath) : d.join root.segments = d := by
  simp [join, root]

theorem join_right_cancel {d e : NamePath} {l : List String} (h : d.join l = e.join l) : d = e := by
  cases d; cases e
  simpa [join] using h

end NamePath

namespace Outline

variable {o : Outline} {id p : Nat} {name first : String} {names segs : List String}
  {ctx d : NamePath} {c : Candidate}

/-- A chain starts with `::`; it is followed down through at most `n` qualifiers. -/
def rootedWithin (o : Outline) : Nat → Nat → Bool
  | 0, _ => false
  | n + 1, id =>
    match o.role id with
    | .reference _ (some s) _ => o.rootedWithin n s
    | .reference _ none rooted => rooted
    | _ => false

/-- A declaration whose header starts with `::`. -/
def declaresFromRoot (o : Outline) (id : Nat) : Bool :=
  match o.role id with
  | .declaration _ (some h) => o.rootedWithin o.size h
  | _ => false

/-- **The absolute path of the nearest declaration** among nodes that are listed nearest first: its
header alone if that starts with `::`, and else the absolute path of the next one, followed by its
header. It is the root when there is no declaration. -/
def absoluteScope (o : Outline) : List Nat → NamePath
  | [] => .root
  | a :: above =>
    match o.declared? a with
    | some segs => if o.declaresFromRoot a then ⟨segs⟩ else (o.absoluteScope above).join segs
    | none => o.absoluteScope above

/-- **The namespace in which a definition defines its name**: the root for a declaration whose header
starts with `::`, and else the absolute path of the nearest declaration around it. -/
def definingScope (o : Outline) (id : Nat) : NamePath :=
  if o.declaresFromRoot id then .root else o.absoluteScope (o.ancestors id)

/-- The names around the nearest declaration whose header starts with `::`, among nodes that are
listed nearest first; none when there is no such declaration. -/
def cutAmong (o : Outline) (ids : List Nat) : NamePath :=
  ((ids.find? o.declaresFromRoot).map o.contextPath).getD .root

/-- The names around a definition that a leading `::` takes it out of. -/
def cutOff (o : Outline) (id : Nat) : NamePath :=
  o.cutAmong (id :: o.ancestors id)

/-- Every path that the resolver gives is that of a definition of the first name. -/
def ResolvesToDefined (o : Outline) : Prop :=
  ∀ names ctx p, o.locate? names ctx = some p →
    ∃ first, names.head? = some first ∧
      ∃ c ∈ o.candidates first, p = (o.definingScope c.node).join names

theorem declaresFromRoot_of_undeclared (hd : o.declared? id = none) :
    o.declaresFromRoot id = false := by
  unfold declared? at hd
  unfold declaresFromRoot
  split
  · rename_i hrole
    rw [hrole] at hd
    cases hd
  · rfl

theorem context_of_mem_candidates (hc : c ∈ o.candidates name) :
    c.context = o.contextPath c.node := by
  unfold candidates at hc
  obtain ⟨id, -, rfl⟩ := List.mem_map.1 hc
  rfl

theorem mem_of_scopeWalk {contexts : List NamePath} (h : scopeWalk contexts ctx = some d) :
    d ∈ contexts := by
  unfold scopeWalk at h
  split at h
  · rename_i x hfind
    cases h
    simpa using List.find?_some hfind
  · split at h
    · exact List.mem_of_head? h
    · cases h

theorem locate?_cons (o : Outline) (first : String) (names : List String) (ctx : NamePath) :
    o.locate? (first :: names) ctx =
      (scopeWalk ((o.candidates first).map (·.context)) ctx).map (·.join (first :: names)) := by
  rw [← (scanned_foldl ctx (o.candidates first)).context_eq, Option.map_map]
  rfl

/-- What the resolver gives is the namespace around a definition, followed by the names of the use. -/
theorem exists_candidate_of_locate? {path : NamePath} (h : o.locate? names ctx = some path) :
    ∃ first, names.head? = some first ∧
      ∃ c ∈ o.candidates first, path = (o.contextPath c.node).join names := by
  cases names with
  | nil => cases h
  | cons first names =>
    rw [locate?_cons] at h
    obtain ⟨d, hd, rfl⟩ := Option.map_eq_some_iff.1 h
    obtain ⟨c, hc, rfl⟩ := List.mem_map.1 (mem_of_scopeWalk hd)
    exact ⟨first, rfl, c, hc, by rw [context_of_mem_candidates hc]⟩

/-- In the namespace around a definition, the resolver gives that namespace for its name. -/
theorem locate?_context (hc : c ∈ o.candidates name) :
    o.locate? [name] c.context = some (c.context.join [name]) := by
  have hself : c.context.startsWith c.context = true := NamePath.startsWith_iff.2 ⟨[], by simp⟩
  have hdeep : ∀ x ∈ (o.candidates name).map (·.context), c.context.startsWith x = true →
      x.length ≤ c.context.length := by
    intro x _ hx
    obtain ⟨inner, hinner⟩ := NamePath.startsWith_iff.1 hx
    unfold NamePath.length
    rw [hinner, List.length_append]
    omega
  rw [locate?_cons, scopeWalk_around (List.mem_map_of_mem hc) hself hdeep]
  rfl

namespace WellNumbered

/-- **The namespace around a node**: the names that a leading `::` cuts off, followed by the absolute
path of the nearest declaration around the node. -/
theorem contextPath_eq_cutAmong (ho : o.WellNumbered) (id : Nat) :
    o.contextPath id =
      (o.cutAmong (o.ancestors id)).join (o.absoluteScope (o.ancestors id)).segments := by
  induction id using Nat.strong_induction_on with
  | _ id ih =>
    cases hp : o.parent? id with
    | none =>
      rw [ho.contextPath_of_root hp, ho.ancestors_of_root hp]
      rfl
    | some p =>
      have hparent := ih p (ho.parent_lt id p hp)
      rw [ho.contextPath_of_parent hp, ho.ancestors_of_parent hp]
      unfold opens absoluteScope cutAmong
      cases hd : o.declared? p with
      | none =>
        rw [List.find?_cons_of_neg (by simp [declaresFromRoot_of_undeclared hd]), hparent,
          NamePath.join_join]
        simp [cutAmong]
      | some segs =>
        cases hr : o.declaresFromRoot p with
        | true =>
          -- the header starts anew, and all names around it are cut off
          rw [List.find?_cons_of_pos hr]
          simp
        | false =>
          rw [List.find?_cons_of_neg (by simp [hr]), hparent, NamePath.join_join]
          simp [cutAmong, NamePath.join]

theorem contextPath_eq_cutOff (ho : o.WellNumbered) (id : Nat) :
    o.contextPath id = (o.cutOff id).join (o.definingScope id).segments := by
  unfold cutOff definingScope
  cases hr : o.declaresFromRoot id with
  | true =>
    unfold cutAmong
    rw [List.find?_cons_of_pos hr, if_pos rfl, NamePath.join_root]
    rfl
  | false =>
    have hcut : o.cutAmong (id :: o.ancestors id) = o.cutAmong (o.ancestors id) := by
      unfold cutAmong
      rw [List.find?_cons_of_neg (by simp [hr])]
    rw [hcut, if_neg (by simp), ho.contextPath_eq_cutAmong]

end WellNumbered

/-- **When resolved paths are those of definitions.** A path that the resolver gives consists of the
names that a leading `::` cuts off from a definition of the first name, the namespace in which that
definition really is, and the names of the use. So all resolved paths of a file are those of
definitions exactly when wherever names are cut off from a definition, the file also defines the same
name in the namespace with these names. -/
theorem resolvesToDefined_iff (source : Source) (root : Tree) :
    (∀ names ctx p, (ofTree source root).locate? names ctx = some p →
      ∃ first, names.head? = some first ∧ ∃ c ∈ (ofTree source root).candidates first,
        p = (((ofTree source root).cutOff c.node).join
          ((ofTree source root).definingScope c.node).segments).join names) ∧
    ((ofTree source root).ResolvesToDefined ↔
      ∀ name, ∀ c ∈ (ofTree source root).candidates name,
        (ofTree source root).cutOff c.node ≠ .root →
          ∃ c' ∈ (ofTree source root).candidates name,
            (ofTree source root).definingScope c'.node = c.context) := by
  set o := ofTree source root
  have ho : o.WellNumbered := wellNumbered_ofItem (Item.ofRoot source root)
  refine ⟨?_, ?_, ?_⟩
  · intro names ctx p h
    obtain ⟨first, hfirst, c, hc, rfl⟩ := exists_candidate_of_locate? h
    exact ⟨first, hfirst, c, hc, by rw [← ho.contextPath_eq_cutOff]⟩
  · intro hall name c hc _
    -- a use right beside the definition resolves to the namespace around it
    obtain ⟨first, hfirst, c', hc', hpath⟩ := hall [name] c.context _ (locate?_context hc)
    cases hfirst
    exact ⟨c', hc', (NamePath.join_right_cancel hpath).symm⟩
  · intro hall names ctx p h
    obtain ⟨first, hfirst, c, hc, rfl⟩ := exists_candidate_of_locate? h
    by_cases hcut : o.cutOff c.node = .root
    · refine ⟨first, hfirst, c, hc, ?_⟩
      rw [ho.contextPath_eq_cutOff, hcut, NamePath.root_join]
    · obtain ⟨c', hc', hscope⟩ := hall first c hc hcut
      exact ⟨first, hfirst, c', hc', by rw [hscope, context_of_mem_candidates hc]⟩

/-- A module that holds a class with a leading `::`, and a use of its name. -/
def rootedClass : Source :=
  .ofString "module A\n  class ::X\n  end\n  X\nend\n"

/-- Its tree. -/
def rootedClassTree : Tree :=
  .node { kind := .other "program", span := ⟨0, 35⟩ }
    [.node { kind := .moduleDecl, span := ⟨0, 34⟩ }
      [.node { kind := .constant, span := ⟨7, 8⟩, field := some .name } [],
        .node { kind := .other "body_statement", span := ⟨11, 30⟩, field := some .body }
          [.node { kind := .classDecl, span := ⟨11, 26⟩ }
              [.node { kind := .scopeResolution, span := ⟨17, 20⟩, field := some .name }
                [.node { kind := .constant, span := ⟨19, 20⟩, field := some .name } []]],
            .node { kind := .constant, span := ⟨29, 30⟩ } []]]]

/-- The use of `X` is resolved to `A::X`, which the file does not define: its only definition of `X`
is at the root. -/
theorem rootedClass_not_resolvesToDefined :
    (ofTree rootedClass rootedClassTree).locate? ["X"] ⟨["A"]⟩ = some ⟨["A", "X"]⟩ ∧
      (ofTree rootedClass rootedClassTree).candidates "X" = [⟨4, ⟨["A"]⟩, "X"⟩] ∧
      (ofTree rootedClass rootedClassTree).definingScope 4 = .root ∧
      ¬(ofTree rootedClass rootedClassTree).ResolvesToDefined := by
  have hlocate : (ofTree rootedClass rootedClassTree).locate? ["X"] ⟨["A"]⟩ =
      some ⟨["A", "X"]⟩ := by cbv
  have hcandidates : (ofTree rootedClass rootedClassTree).candidates "X" =
      [⟨4, ⟨["A"]⟩, "X"⟩] := by cbv
  have hscope : (ofTree rootedClass rootedClassTree).definingScope 4 = .root := by cbv
  refine ⟨hlocate, hcandidates, hscope, fun hall => ?_⟩
  obtain ⟨first, hfirst, c, hc, hpath⟩ := hall _ _ _ hlocate
  cases hfirst
  rw [hcandidates, List.mem_singleton] at hc
  rw [hc, hscope] at hpath
  simp [NamePath.join, NamePath.root] at hpath

end Outline

end RubyLint
