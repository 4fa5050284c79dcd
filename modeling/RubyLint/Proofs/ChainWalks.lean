import RubyLint.Proofs.Chains

/-!
# Walking along a chain

Two loops follow a chain of constants. One climbs from a use to the top of its chain, from parent to
parent; the other goes down from a use, from scope to scope, and collects the names. `chainTop` and
`chainSegments` run them for at most as many rounds as there are nodes. No bound is needed: a parent has
a smaller number and a scope the next one, so both loops end by themselves, and with the same results.
A climb goes back just the links that a descent takes, so that the two agree on every chain.

* `Rounds`: a loop that ends; `Rounds.unique`: it does so in one way.
* `climb?`, `collect?`: one round of either loop.
* `Linked.climb?_eq_some_iff`: a round of the climb goes back one link.
* `Linked.exists_rounds_climb`, `Linked.exists_rounds_collect`: **both loops end**, with the top and the
  names of the chain.
* `Linked.chainSegments_of_link` (one round), `Linked.names_of_rounds` (a whole climb): the names that a
  climb adds to those of a chain.
* `Linked.chainTop_eq_iff`: nodes with the same top are linked.
* `walksChain_ofTree`: **the two loops agree on every chain of every file.**
-/

namespace RubyLint

/-- **A loop that ends**: the states that it comes to from a given one, one in each round, and the last
of them, which has no next. -/
inductive Rounds {σ : Type} (step : σ → Option σ) : σ → List σ → σ → Prop
  | stop {s : σ} (h : step s = none) : Rounds step s [] s
  | round {s next last : σ} {later : List σ} (h : step s = some next)
      (rest : Rounds step next later last) : Rounds step s (next :: later) last

/-- A loop ends in one way. -/
theorem Rounds.unique {σ : Type} {step : σ → Option σ} {s last last' : σ} {later later' : List σ}
    (h : Rounds step s later last) (h' : Rounds step s later' last') :
    later = later' ∧ last = last' := by
  induction h generalizing later' with
  | stop hs =>
    cases h' with
    | stop => exact ⟨rfl, rfl⟩
    | round hs' => rw [hs] at hs'; cases hs'
  | round hs _ ih =>
    cases h' with
    | stop hs' => rw [hs] at hs'; cases hs'
    | round hs' hrest =>
      rw [hs] at hs'; cases hs'
      obtain ⟨rfl, rfl⟩ := ih hrest
      exact ⟨rfl, rfl⟩

namespace Outline

variable {o : Outline} {id a b top : Nat} {climbed : List Nat} {name : String} {rooted : Bool}

/-- The name at a use of a constant, and what qualifies the use. -/
def use? (o : Outline) (id : Nat) : Option (String × Option Nat) :=
  match o.role id with
  | .reference name scope _ => some (name, scope)
  | _ => none

/-- The name at a use of a constant. -/
def name? (o : Outline) (id : Nat) : Option String :=
  (o.use? id).map Prod.fst

/-- **A round of the climb**: from a node to its parent, if it qualifies the parent. -/
def climb? (o : Outline) (id : Nat) : Option Nat :=
  (o.parent? id).filter fun p => o.scope? p = some id

/-- **A round of the descent**: adds the name at a use of a constant to those collected so far, and goes
on to what qualifies the use. -/
def collect? (o : Outline) (state : Option Nat × List String) :
    Option (Option Nat × List String) :=
  (state.1.bind o.use?).map fun (name, scope) => (scope, state.2 ++ [name])

theorem use?_of_role {scope : Option Nat} (h : o.role id = .reference name scope rooted) :
    o.use? id = some (name, scope) := by
  unfold use?
  rw [h]

theorem collect?_of_role {scope : Option Nat} (h : o.role id = .reference name scope rooted)
    (names : List String) : o.collect? (some id, names) = some (scope, names ++ [name]) := by
  unfold collect?
  rw [Option.bind_some, use?_of_role h, Option.map_some]

namespace Linked

/-- A round of the climb goes back one link. -/
theorem climb?_eq_some_iff (ho : o.Linked) : o.climb? a = some b ↔ o.Link b a := by
  unfold climb? Link
  rw [Option.filter_eq_some_iff, decide_eq_true_eq]
  constructor
  · intro h
    exact h.2
  · intro h
    exact ⟨(ho.scope_next b a h).2, h⟩

theorem climb?_chainTop (ho : o.Linked) (hid : id < o.size) : o.climb? (o.chainTop id) = none := by
  rw [Option.eq_none_iff_forall_ne_some]
  intro p hp
  have hlink : o.scope? p = some (o.chainTop id) := ho.climb?_eq_some_iff.1 hp
  exact ho.climbChain_maximal hid p (ho.scope_next _ _ hlink).2 hlink

/-- Going back along the links is a climb. -/
theorem exists_rounds_of_links (ho : o.Linked) (h : Relation.ReflTransGen o.Link top id)
    (htop : o.climb? top = none) : ∃ climbed, Rounds o.climb? id climbed top := by
  induction h with
  | refl => exact ⟨[], .stop htop⟩
  | @tail mid last _ hlink ih =>
    obtain ⟨climbed, hrounds⟩ := ih
    exact ⟨mid :: climbed, .round (ho.climb?_eq_some_iff.2 hlink) hrounds⟩

/-- **The climb ends**, at the top of the chain. -/
theorem exists_rounds_climb (ho : o.Linked) (hid : id < o.size) :
    ∃ climbed, Rounds o.climb? id climbed (o.chainTop id) :=
  ho.exists_rounds_of_links (climbChain_links o.size id) (ho.climb?_chainTop hid)

theorem chainTop_of_rounds (ho : o.Linked) (h : Rounds o.climb? id climbed top)
    (hid : id < o.size) : o.chainTop id = top := by
  obtain ⟨climbed', h'⟩ := ho.exists_rounds_climb hid
  exact (h'.unique h).2

theorem chainTop_lt_size (ho : o.Linked) (hid : id < o.size) : o.chainTop id < o.size :=
  Nat.lt_of_le_of_lt (ho.le_of_links (climbChain_links o.size id)) hid

/-- The top of a chain is its own top. -/
theorem chainTop_chainTop (ho : o.Linked) (hid : id < o.size) :
    o.chainTop (o.chainTop id) = o.chainTop id :=
  ho.chainTop_of_rounds (.stop (ho.climb?_chainTop hid)) (ho.chainTop_lt_size hid)

/-- **The descent ends**, and adds to the names so far those of the chain. It stops where nothing is
left, or at a node of the outline that is not a use of a constant. -/
theorem exists_rounds_collect (ho : o.Linked) {n : Nat} (hid : id < o.size) (hn : o.size ≤ id + n)
    (names : List String) :
    ∃ collected rest, Rounds o.collect? (some id, names) collected
        (rest, names ++ o.descendChain n id) ∧
      ∀ s, rest = some s → s < o.size := by
  -- a scope has the next number, so the numbers left in the outline bound the rounds
  induction n generalizing id names with
  | zero => omega
  | succ n ih =>
    unfold descendChain
    cases hrole : o.role id with
    | reference name scope rooted =>
      have hround := collect?_of_role hrole names
      cases scope with
      | none =>
        exact ⟨_, none, .round hround (.stop rfl), by simp⟩
      | some s =>
        have hscope : o.scope? id = some s := scope?_eq_some_iff.2 ⟨name, rooted, hrole⟩
        obtain ⟨hs, hparent⟩ := ho.scope_next id s hscope
        obtain ⟨collected, rest, hrounds, hrest⟩ :=
          ih (lt_size_of_parent? hparent) (by omega) (names ++ [name])
        rw [List.append_assoc] at hrounds
        exact ⟨_, rest, .round hround hrounds, hrest⟩
    | _ =>
      have hstop : o.collect? (some id, names) = none := by
        simp [collect?, use?, hrole]
      refine ⟨[], some id, ?_, ?_⟩
      · rw [List.append_nil]
        exact .stop hstop
      · intro s hs
        cases hs
        exact hid

/-- **One link up, a chain has one more name**, that of the use which is qualified. -/
theorem chainSegments_of_link (ho : o.Linked) (hrole : o.role b = .reference name (some a) rooted) :
    o.chainSegments b = o.chainSegments a ++ [name] := by
  have hscope : o.scope? b = some a := scope?_eq_some_iff.2 ⟨name, rooted, hrole⟩
  have hb : b < o.size := lt_size_of_role (by rw [hrole]; simp)
  have ha : a < o.size := lt_size_of_parent? (ho.scope_next b a hscope).2
  -- the descent from `b` is one round and then the descent from `a`
  obtain ⟨_, _, hfrom_b, -⟩ := ho.exists_rounds_collect hb (Nat.le_add_left o.size b) []
  obtain ⟨_, _, hfrom_a, -⟩ := ho.exists_rounds_collect ha (Nat.le_add_left o.size a) ([] ++ [name])
  have hsame := (hfrom_b.unique (.round (collect?_of_role hrole []) hfrom_a)).2
  have hnames : o.descendChain o.size b = name :: o.descendChain o.size a :=
    congrArg Prod.snd hsame
  unfold chainSegments
  rw [hnames, List.reverse_cons]

/-- **A climb adds one name in each round**, that of the use it comes to. -/
theorem names_of_rounds (ho : o.Linked) (h : Rounds o.climb? id climbed top) :
    ∃ names : List String, climbed.map o.name? = names.map some ∧
      o.chainSegments top = o.chainSegments id ++ names := by
  induction h with
  | stop => exact ⟨[], rfl, (List.append_nil _).symm⟩
  | @round id next top later hround _ ih =>
    obtain ⟨names, hnames, hsegments⟩ := ih
    obtain ⟨name, rooted, hrole⟩ := scope?_eq_some_iff.1 (ho.climb?_eq_some_iff.1 hround)
    refine ⟨name :: names, ?_, ?_⟩
    · have hname : o.name? next = some name := by
        unfold name?
        rw [use?_of_role hrole, Option.map_some]
      rw [List.map_cons, hname, hnames, List.map_cons]
    · rw [hsegments, ho.chainSegments_of_link hrole, List.append_assoc]
      rfl

/-- A link does not change the top. -/
theorem chainTop_of_link (ho : o.Linked) (h : o.Link b a) : o.chainTop a = o.chainTop b := by
  obtain ⟨name, rooted, hrole⟩ := scope?_eq_some_iff.1 h
  have hb : b < o.size := lt_size_of_role (by rw [hrole]; simp)
  obtain ⟨climbed, hrounds⟩ := ho.exists_rounds_climb hb
  exact ho.chainTop_of_rounds (.round (ho.climb?_eq_some_iff.2 h) hrounds)
    (lt_size_of_parent? (ho.scope_next b a h).2)

theorem chainTop_of_links (ho : o.Linked) (h : Relation.ReflTransGen o.Link b a) :
    o.chainTop a = o.chainTop b := by
  induction h with
  | refl => rfl
  | tail _ hlink ih => exact (ho.chainTop_of_link hlink).trans ih

/-- **Nodes have the same top exactly if the links lead from one of them to the other.** -/
theorem chainTop_eq_iff (ho : o.Linked) :
    o.chainTop a = o.chainTop b ↔
      Relation.ReflTransGen o.Link a b ∨ Relation.ReflTransGen o.Link b a := by
  constructor
  · intro h
    have hunique : Relator.RightUnique o.Link := fun x y z hy hz => Option.some.inj (hy.symm.trans hz)
    have ha : Relation.ReflTransGen o.Link (o.chainTop a) a := climbChain_links o.size a
    have hb : Relation.ReflTransGen o.Link (o.chainTop b) b := climbChain_links o.size b
    rw [h] at ha
    exact Relation.ReflTransGen.total_of_right_unique hunique ha hb
  · rintro (h | h)
    · exact (ho.chainTop_of_links h).symm
    · exact ho.chainTop_of_links h

end Linked

/-- **The two loops from one node**, whose climb comes to the uses `climbed` with the names `names`. -/
structure WalksChain (o : Outline) (id : Nat) (climbed : List Nat) (names : List String) : Prop where
  /-- The climb ends at the top of the chain, and a climb from there does not move. -/
  climbs : Rounds o.climb? id climbed (o.chainTop id)
  top_again : o.chainTop (o.chainTop id) = o.chainTop id
  /-- The links lead back from the top. -/
  links : Relation.ReflTransGen o.Link (o.chainTop id) id
  /-- The descent ends with the names of the chain, the rightmost first, and stays in the outline. -/
  collects : ∃ collected rest,
    Rounds o.collect? (some id, []) collected (rest, (o.chainSegments id).reverse) ∧
      ∀ s, rest = some s → s < o.size
  /-- From the node to the top, one name is added for each round of the climb. -/
  named : climbed.map o.name? = names.map some
  segments : o.chainSegments (o.chainTop id) = o.chainSegments id ++ names

theorem Linked.walksChain (ho : o.Linked) (hid : id < o.size) :
    ∃ climbed names, o.WalksChain id climbed names := by
  obtain ⟨climbed, hclimb⟩ := ho.exists_rounds_climb hid
  obtain ⟨names, hnamed, hsegments⟩ := ho.names_of_rounds hclimb
  obtain ⟨collected, rest, hcollect, hrest⟩ :=
    ho.exists_rounds_collect hid (Nat.le_add_left o.size id) []
  have hreverse : [] ++ o.descendChain o.size id = (o.chainSegments id).reverse := by
    unfold chainSegments
    rw [List.reverse_reverse, List.nil_append]
  rw [hreverse] at hcollect
  exact ⟨climbed, names, hclimb, ho.chainTop_chainTop hid, climbChain_links o.size id,
    ⟨collected, rest, hcollect, hrest⟩, hnamed, hsegments⟩

/-- **The two loops agree on every chain of every file.** From every node both of them end. The climb
finds a top that is its own top and from which the links lead back to the node; the names of the chain
up to the node are the first names of the whole chain, and the others are those of the uses that the
climb comes to, one in each round. Two nodes have the same top exactly if the links lead from one of
them to the other. -/
theorem walksChain_ofTree (source : Source) (root : Tree) :
    (∀ id < (ofTree source root).size,
      ∃ climbed names, (ofTree source root).WalksChain id climbed names) ∧
    ∀ a b, (ofTree source root).chainTop a = (ofTree source root).chainTop b ↔
      Relation.ReflTransGen (ofTree source root).Link a b ∨
        Relation.ReflTransGen (ofTree source root).Link b a := by
  have ho : (ofTree source root).Linked := linked_ofItem (Item.ofRoot source root)
  exact ⟨fun id hid => ho.walksChain hid, fun a b => ho.chainTop_eq_iff⟩

-- In `f(A::B)::C::D` the scope of `C` is a call, which holds a chain of its own.
example :
    let use := fun (name : String) (inner : List Item) => Item.mk (.reference name false) ⟨0, 0⟩ inner
    let call := Item.mk .other ⟨0, 0⟩ [use "B" [use "A" []]]
    let o := ofItem (.mk .other ⟨0, 0⟩ [use "D" [use "C" [call]]])
    [1, 2, 4, 5].map o.chainTop = [1, 1, 4, 4] ∧
      [1, 2, 4, 5].map o.chainSegments = [["C", "D"], ["C"], ["A", "B"], ["A"]] := by
  decide

end Outline

end RubyLint
