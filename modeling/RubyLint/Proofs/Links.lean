import Mathlib.Data.List.NodupEquivFin
import RubyLint.Proofs.Numbered

/-!
# The links of an outline

A use of a constant points to what qualifies it, and a declaration to its header. Both are among the
children of the node that points to them, however deep the reading of these children went. To say
which node of the syntax tree a number comes from, the nodes of the tree are told apart by their
sites: the places of children to take from the top down.

* `WellLinked`: what the links point to; `ReadsAt.reference`, `ReadsAt.declaration`: so it is at the
  number of any node.
* `Holds.chainSegments_eq`: the names along the links of a chain are those of its item.
* `Tree.at?`, `Outline.IsTrace`: the site that each number comes from; `exists_trace`.
* `wellLinked_ofTree`: **the links of every file are sound**, only a chain with a leading `::` is
  rooted, and no number comes from a constant that names a method or is assigned.
-/

namespace RubyLint

namespace Item

variable {source : Source} {asTarget : Bool} {n : Tree} {name : String} {rooted : Bool}
  {header : Option Nat} {k : Nat}

theorem length_numbers (start : Nat) (ts : List Item) : (numbers start ts).length = ts.length := by
  induction ts generalizing start with
  | nil => rfl
  | cons t ts ih => rw [numbers, List.length_cons, ih, List.length_cons]

/-- **Which nodes are read as uses of a constant.** -/
theorem label_reading_reference (h : (reading source asTarget n).label = .reference name rooted) :
    n.kind = .constant ∧ rooted = false ∨
      n.kind = .scopeResolution ∧ rooted = (n.child? .scope).isNone := by
  unfold reading at h
  split at h
  · cases h
  obtain ⟨⟨kind, span, named, isError, isMissing, hasError, field⟩, ns⟩ := n
  cases kind with
  | constant => rw [ofTree] at h; cases h; exact Or.inl ⟨rfl, rfl⟩
  | scopeResolution =>
    rw [ofTree] at h; cases h
    refine Or.inr ⟨rfl, ?_⟩
    change (!ns.any (·.hasField .scope)) = (ns.find? (·.hasField .scope)).isNone
    rw [← List.isSome_find?, Option.not_isSome]
  | assignment => rw [ofTree] at h; simp only at h; split at h <;> cases h
  | operatorAssignment => rw [ofTree] at h; simp only at h; split at h <;> cases h
  | _ => rw [ofTree] at h; cases h

/-- **Which nodes are read as declarations.** -/
theorem label_reading_declaration (h : (reading source asTarget n).label = .declaration header) :
    (n.kind = .moduleDecl ∨ n.kind = .classDecl) ∧ header = headerPlace? n.children := by
  unfold reading at h
  split at h
  · cases h
  obtain ⟨⟨kind, span, named, isError, isMissing, hasError, field⟩, ns⟩ := n
  cases kind with
  | moduleDecl => rw [ofTree] at h; cases h; exact ⟨Or.inl rfl, rfl⟩
  | classDecl => rw [ofTree] at h; cases h; exact ⟨Or.inr rfl, rfl⟩
  | assignment => rw [ofTree] at h; simp only at h; split at h <;> cases h
  | operatorAssignment => rw [ofTree] at h; simp only at h; split at h <;> cases h
  | _ => rw [ofTree] at h; cases h

/-- The items inside a declaration are those of its named children. -/
theorem children_reading_declaration (h : n.kind = .moduleDecl ∨ n.kind = .classDecl) :
    (reading source asTarget n).children = n.namedChildren.map (ofTree source) := by
  have hparts : parts n = n.namedChildren := by
    unfold parts; rcases h with h | h <;> rw [h]
  have htargets : holdsTargets n = false := by
    unfold holdsTargets; rcases h with h | h <;> rw [h] <;> rfl
  rw [children_reading, hparts, htargets]
  rfl

/-- A header is read as a use of a constant. -/
theorem label_header (source : Source) (h : headerPlace? n.children = some k) :
    ∃ m name rooted, n.namedChildren[k]? = some m ∧
      (ofTree source m).label = .reference name rooted := by
  obtain ⟨hk, hm, -⟩ := List.findIdx?_eq_some_iff_getElem.1 h
  change k < n.namedChildren.length at hk
  refine ⟨n.namedChildren[k], ?_⟩
  have hkind : n.namedChildren[k].kind = .constant ∨ n.namedChildren[k].kind = .scopeResolution := by
    have := (Bool.and_eq_true_iff.1 hm).2
    rwa [Bool.or_eq_true, decide_eq_true_eq, decide_eq_true_eq] at this
  generalize hm : n.namedChildren[k] = m at hkind
  obtain ⟨info, ns⟩ := m
  rw [ofTree]
  rcases hkind with hkind | hkind
  all_goals
    change info.kind = _ at hkind
    rw [hkind]
    exact ⟨_, _, by rw [List.getElem?_eq_getElem hk, hm], rfl⟩

end Item

namespace Outline

open Item

variable {o : Outline} {source : Source} {parent : Option Nat} {id k outer start : Nat} {n : Tree}
  {t : Item} {ts : List Item} {name : String} {scope : Option Nat} {rooted : Bool}
  {segs : List String} {header : Option Nat}

theorem role_eq_reference {label : Item.Label} {numbers : List Nat}
    (h : label.role ts numbers = .reference name scope rooted) :
    label = .reference name rooted ∧ scope = numbers.head? := by
  cases label <;> cases h
  exact ⟨rfl, rfl⟩

theorem role_eq_declaration {label : Item.Label} {numbers : List Nat}
    (h : label.role ts numbers = .declaration segs header) :
    ∃ place, label = .declaration place ∧
      segs = ((place.bind (ts[·]?)).map segments).getD [] ∧
      header = place.bind (numbers[·]?) := by
  cases label <;> cases h
  exact ⟨_, rfl, rfl, rfl⟩

theorem Holds.count_le (h : o.Holds parent start t) : start + t.count ≤ o.size := by
  obtain ⟨before, after, hnodes, rfl⟩ := h
  have hsize : o.size = o.nodes.toList.length := rfl
  rw [hsize, hnodes, List.length_append, List.length_append, length_flatten]
  omega

/-- The item at the `k`-th number of several. -/
theorem HoldsAll.at_number (h : o.HoldsAll outer start ts) (hk : (numbers start ts)[k]? = some id) :
    ∃ t, ts[k]? = some t ∧ o.Holds (some outer) id t := by
  induction ts generalizing start k with
  | nil => cases hk
  | cons t ts ih =>
    cases k with
    | zero => cases hk; exact ⟨t, rfl, h.head⟩
    | succ k => exact ih h.tail hk

/-- Going down a chain of links reads the names of its item, as long as the rounds last. -/
theorem Holds.descendChain_eq {rounds : Nat} (h : o.Holds parent start t) (hr : t.count ≤ rounds) :
    o.descendChain rounds start = t.segments.reverse := by
  induction rounds generalizing parent start t with
  | zero => have := t.count_pos; omega
  | succ rounds ih =>
    obtain ⟨label, span, inner⟩ := t
    unfold descendChain
    rw [h.role_eq]
    cases label with
    | reference name rooted =>
      cases inner with
      | nil => simp [Item.label, Item.Label.role, Item.children, numbers, segments, qualifier]
      | cons c cs =>
        have hcount : c.count ≤ rounds := by
          rw [count_eq] at hr
          simp only [Item.children, countAll] at hr
          omega
        have hc := ih h.inner.head hcount
        simp [Item.label, Item.Label.role, Item.children, numbers, segments, qualifier, hc]
    | _ => simp [Item.label, Item.Label.role, segments]

theorem Holds.chainSegments_eq (h : o.Holds parent start t) : o.chainSegments start = t.segments := by
  have hcount := h.count_le
  unfold chainSegments
  rw [h.descendChain_eq (by omega), List.reverse_reverse]

/-- **What the links of an outline point to**: the scope of a use is its only child, and the header
of a declaration is one of its children, a use whose names are the declared ones. -/
structure WellLinked (o : Outline) : Prop where
  qualified : ∀ id name s rooted, o.role id = .reference name (some s) rooted →
    o.children id = [s] ∧ o.parent? s = some id ∧ rooted = false
  bare : ∀ id name rooted, o.role id = .reference name none rooted → o.children id = []
  header : ∀ id segs h, o.role id = .declaration segs (some h) →
    o.parent? h = some id ∧ o.isReference h = true ∧ segs = o.chainSegments h ∧ segs ≠ []
  headerless : ∀ id segs, o.role id = .declaration segs none → segs = []

namespace ReadsAt

/-- A use of a constant has no child but its scope, and is rooted only without one. -/
theorem reference (h : o.ReadsAt source id n) (hrole : o.role id = .reference name scope rooted) :
    o.children id = scope.toList ∧ (scope ≠ none → rooted = false) ∧
      (rooted = true ↔ n.kind = .scopeResolution ∧ n.child? .scope = none) := by
  obtain ⟨parent, asTarget, hholds⟩ := h
  rw [hholds.role_eq] at hrole
  obtain ⟨hlabel, rfl⟩ := role_eq_reference hrole
  rw [hholds.children_eq, children_reading]
  rcases label_reading_reference hlabel with ⟨hkind, rfl⟩ | ⟨hkind, rfl⟩
  · have hparts : parts n = [] := by unfold parts; rw [hkind]
    rw [hparts]
    exact ⟨rfl, fun _ => rfl, by simp [hkind]⟩
  · have hparts : parts n = (n.child? .scope).toList := by unfold parts; rw [hkind]
    rw [hparts]
    cases n.child? .scope with
    | none => exact ⟨rfl, fun hne => absurd rfl hne, by simp [hkind]⟩
    | some m => exact ⟨rfl, fun _ => rfl, by simp⟩

/-- The header of a declaration is one of its children, and its names are the declared ones. -/
theorem declaration (h : o.ReadsAt source id n) (hrole : o.role id = .declaration segs header) :
    (header = none → segs = []) ∧ ∀ h, header = some h →
      h ∈ o.children id ∧ o.isReference h = true ∧ segs = o.chainSegments h ∧ segs ≠ [] := by
  obtain ⟨parent, asTarget, hholds⟩ := h
  rw [hholds.role_eq] at hrole
  obtain ⟨place, hlabel, rfl, rfl⟩ := role_eq_declaration hrole
  obtain ⟨hkind, rfl⟩ := label_reading_declaration hlabel
  have hinner := hholds.inner
  rw [hholds.children_eq]
  rw [children_reading_declaration hkind] at hinner ⊢
  cases hplace : headerPlace? n.children with
  | none => exact ⟨fun _ => rfl, fun h hh => by cases hh⟩
  | some k =>
    obtain ⟨m, name, rooted, hm, hlabel⟩ := label_header source hplace
    have hk : (n.namedChildren.map (Item.ofTree source))[k]? = some (Item.ofTree source m) := by
      rw [List.getElem?_map, hm]; rfl
    rw [Option.bind_some, Option.bind_some, hk]
    constructor
    · intro hnone
      rw [List.getElem?_eq_none_iff, length_numbers] at hnone
      rw [List.getElem?_eq_none hnone] at hk; cases hk
    · intro h hh
      obtain ⟨item, hitem, hat⟩ := hinner.at_number hh
      rw [hk] at hitem; cases hitem
      have hrole := hat.role_eq
      generalize Item.ofTree source m = item at hlabel hat hrole
      obtain ⟨label, span, inner⟩ := item
      cases hlabel
      refine ⟨List.mem_of_getElem? hh, ?_, hat.chainSegments_eq.symm, ?_⟩
      · unfold isReference; rw [hrole]; rfl
      · simp [segments]

end ReadsAt

end Outline

namespace Tree

/-- The node at a site: the places of the children to take, from the top down. -/
def at? : Tree → List Nat → Option Tree
  | t, [] => some t
  | t, i :: site => t.children[i]?.bind (·.at? site)

theorem at?_concat (t : Tree) (site : List Nat) (i : Nat) :
    t.at? (site ++ [i]) = (t.at? site).bind (·.children[i]?) := by
  induction site generalizing t with
  | nil => cases h : t.children[i]? <;> simp [at?, h]
  | cons j site ih => cases h : t.children[j]? <;> simp [at?, h, ih]

/-- A constant only gives something in a node its name: the method of a call, or what is assigned. -/
def OnlyNames (q m : Tree) : Prop :=
  m.kind = .constant ∧
    (q.kind = .call ∧ q.child? .method = some m ∨
      (q.kind = .assignment ∨ q.kind = .operatorAssignment) ∧ q.child? .left = some m)

end Tree

namespace Item

variable {q m n : Tree}

theorem parts_sublist (n : Tree) : (parts n).Sublist n.children := by
  have hnamed : n.namedChildren.Sublist n.children := List.filter_sublist
  have hfield : ∀ f, (n.child? f).toList.Sublist n.children := by
    intro f
    cases hc : n.child? f with
    | none => exact List.nil_sublist _
    | some c => exact List.singleton_sublist.2 (List.mem_of_find?_eq_some hc)
  unfold parts
  split
  · split
    · exact hfield .right
    · exact hnamed
  · split
    · exact hfield .right
    · exact hnamed
  · exact List.nil_sublist _
  · exact hfield .scope
  · exact List.filter_sublist.trans hnamed
  · exact hnamed

/-- What only names something is not read. -/
theorem not_mem_parts (h : q.OnlyNames m) : m ∉ parts q := by
  obtain ⟨hm, ⟨hkind, hmethod⟩ | ⟨hkind, hleft⟩⟩ := h
  · have hfield : m.hasField .method = true := List.find?_some hmethod
    unfold parts; rw [hkind]
    simp [hm, hfield]
  · have hfield : m.hasField .left = true := List.find?_some hleft
    have hparts : parts q = (q.child? .right).toList := by
      unfold parts; rcases hkind with hkind | hkind <;> rw [hkind] <;> simp [hleft, hm]
    rw [hparts, Option.mem_toList]
    intro hright
    -- one child cannot be on both sides
    have hfield' : m.hasField .right = true := List.find?_some hright
    unfold Tree.hasField at hfield hfield'
    rw [decide_eq_true_eq] at hfield hfield'
    rw [hfield] at hfield'; cases hfield'

/-- What is read of the node at a site; of the top, which is the file, all constructs. -/
def partsAt (site : List Nat) (n : Tree) : List Tree :=
  if site = [] then n.namedChildren else parts n

theorem partsAt_sublist (site : List Nat) (n : Tree) : (partsAt site n).Sublist n.children := by
  unfold partsAt
  split
  · exact List.filter_sublist
  · exact parts_sublist n

end Item

namespace Outline

open Item

variable {o : Outline} {source : Source} {root : Tree} {site : List Nat} {id c p k i : Nat}

/-- **Where the numbers of an outline come from.** The file comes from the top of the tree, any other
number from a child of the node that its parent comes from, and siblings come in source order; the
node at the site of a number is the one that was read there. -/
structure IsTrace (o : Outline) (source : Source) (root : Tree) (site : Nat → List Nat) : Prop where
  top : site 0 = []
  inside : ∀ id p, o.parent? id = some p → ∃ i, site id = site p ++ [i]
  ordered : ∀ p, (o.children p).Pairwise fun a b =>
    ∃ i j, i < j ∧ site a = site p ++ [i] ∧ site b = site p ++ [j]
  reads : ∀ id, 0 < id → id < o.size → ∃ n, root.at? (site id) = some n ∧ o.ReadsAt source id n

/-- The node at a site was read at a number, and its parts at the children of that number. -/
def StandsAt (o : Outline) (source : Source) (root : Tree) (id : Nat) (site : List Nat) : Prop :=
  ∃ n, root.at? site = some n ∧ (site ≠ [] → o.ReadsAt source id n) ∧
    List.Forall₂ (o.ReadsAt source) (o.children id) (partsAt site n)

theorem standsAt_top (source : Source) (root : Tree) :
    (ofTree source root).StandsAt source root 0 [] := by
  have hholds : (ofTree source root).Holds none 0 (ofRoot source root) := holds_ofItem _
  have hinner := hholds.inner
  refine ⟨root, rfl, fun hne => absurd rfl hne, ?_⟩
  rw [hholds.children_eq, partsAt, if_pos rfl]
  rw [children_ofRoot] at hinner ⊢
  exact hinner.readsAt

/-- **The step of a trace**: a child of a number stands at the place of the part that it reads. -/
theorem StandsAt.child (h : o.StandsAt source root id site) (hc : (o.children id)[k]? = some c)
    (hplace : ∀ n, root.at? site = some n → (partsAt site n)[k]? = n.children[i]?) :
    o.StandsAt source root c (site ++ [i]) ∧
      ∀ n, root.at? site = some n → ∀ m, root.at? (site ++ [i]) = some m → m ∈ partsAt site n := by
  obtain ⟨n, hn, -, hchildren⟩ := h
  obtain ⟨hk, rfl⟩ := List.getElem?_eq_some_iff.1 hc
  have hk' : k < (partsAt site n).length := hchildren.length_eq ▸ hk
  have hread : o.ReadsAt source (o.children id)[k] (partsAt site n)[k] := hchildren.get hk hk'
  have hat : root.at? (site ++ [i]) = some (partsAt site n)[k] := by
    rw [Tree.at?_concat, hn, Option.bind_some, ← hplace n hn, List.getElem?_eq_getElem hk']
  constructor
  · refine ⟨_, hat, fun _ => hread, ?_⟩
    rw [partsAt, if_neg (by simp)]
    exact hread.children
  · intro n' hn' m hm
    rw [hn] at hn'; cases hn'
    rw [hat] at hm; cases hm
    exact List.getElem_mem hk'

/-- The site of a node, given by its number and those above it, nearest first, when `place` tells
where the parts of the node at a site stand among its children. -/
def siteOf (o : Outline) (place : List Nat → Nat → Nat) : List Nat → List Nat
  | [] => []
  | [_] => []
  | id :: p :: above =>
    o.siteOf place (p :: above) ++
      [place (o.siteOf place (p :: above)) ((o.children p).idxOf id)]

/-- The site of a number. -/
def siteAt (o : Outline) (place : List Nat → Nat → Nat) (id : Nat) : List Nat :=
  o.siteOf place (id :: o.ancestors id)

/-- What is read of a node stands among its children in source order. -/
theorem exists_places (root : Tree) (site : List Nat) :
    ∃ place : Nat ↪o Nat, ∀ n, root.at? site = some n →
      ∀ k, (partsAt site n)[k]? = n.children[place k]? := by
  cases root.at? site with
  | none => exact ⟨RelEmbedding.refl _, fun n hn => by cases hn⟩
  | some n =>
    obtain ⟨place, h⟩ := List.sublist_iff_exists_orderEmbedding_getElem?_eq.1 (partsAt_sublist site n)
    exact ⟨place, fun n' hn' => by cases hn'; exact h⟩

section Sites

variable {place : List Nat → Nat → Nat}

theorem WellNumbered.siteAt_zero (ho : o.WellNumbered) : o.siteAt place 0 = [] := by
  have hroot := (ho.root_iff 0 ho.size_pos).2 rfl
  unfold siteAt
  rw [ho.ancestors_of_root hroot]
  rfl

theorem WellNumbered.siteAt_of_parent (ho : o.WellNumbered) (hp : o.parent? id = some p) :
    o.siteAt place id =
      o.siteAt place p ++ [place (o.siteAt place p) ((o.children p).idxOf id)] := by
  unfold siteAt
  rw [ho.ancestors_of_parent hp]
  rfl

theorem WellNumbered.siteAt_ne_nil (ho : o.WellNumbered) (hpos : 0 < id) (hid : id < o.size) :
    o.siteAt place id ≠ [] := by
  obtain ⟨p, hp⟩ := ho.exists_parent hpos hid
  rw [ho.siteAt_of_parent hp]
  simp

theorem WellNumbered.child_idxOf (ho : o.WellNumbered) (hp : o.parent? id = some p) :
    (o.children p)[(o.children p).idxOf id]? = some id :=
  List.getElem?_idxOf ((ho.mem_children_iff id p).2 hp)

theorem standsAt_siteAt
    (hplace : ∀ site n, root.at? site = some n →
      ∀ k, (partsAt site n)[k]? = n.children[place site k]?)
    (hid : id < (ofTree source root).size) :
    (ofTree source root).StandsAt source root id ((ofTree source root).siteAt place id) := by
  have ho : (ofTree source root).WellNumbered := wellNumbered_ofItem (ofRoot source root)
  -- parents come first, so what is known of them carries over to their children
  induction id using Nat.strong_induction_on with
  | _ id ih =>
    cases hp : (ofTree source root).parent? id with
    | none =>
      obtain rfl := (ho.root_iff id hid).1 hp
      rw [ho.siteAt_zero]
      exact standsAt_top source root
    | some p =>
      have hlt := ho.parent_lt id p hp
      rw [ho.siteAt_of_parent hp]
      exact ((ih p hlt (by omega)).child (ho.child_idxOf hp) fun n hn => hplace _ n hn _).1

end Sites

/-- **Every number comes from a node of the tree**, and, below the top, from one of the parts that
are read of a node. -/
theorem exists_trace (source : Source) (root : Tree) :
    ∃ site, (ofTree source root).IsTrace source root site ∧
      ∀ id p, (ofTree source root).parent? id = some p → 0 < p →
        ∀ q m, root.at? (site p) = some q → root.at? (site id) = some m → m ∈ parts q := by
  choose place hplace using exists_places root
  set o := ofTree source root
  have ho : o.WellNumbered := wellNumbered_ofItem (ofRoot source root)
  have hstands : ∀ id, id < o.size →
      o.StandsAt source root id (o.siteAt (fun s => place s) id) := fun id hid =>
    standsAt_siteAt hplace hid
  refine ⟨o.siteAt fun s => place s,
    ⟨ho.siteAt_zero, fun id p hp => ⟨_, ho.siteAt_of_parent hp⟩, ?_, ?_⟩, ?_⟩
  · intro p
    have hnodup : (o.children p).Nodup := (ho.increasing p).imp Nat.ne_of_lt
    have hparent : ∀ k (hk : k < (o.children p).length), o.parent? (o.children p)[k] = some p :=
      fun k hk => (ho.mem_children_iff _ p).1 (List.getElem_mem hk)
    rw [List.pairwise_iff_getElem]
    intro a b ha hb hab
    refine ⟨_, _, (place (o.siteAt (fun s => place s) p)).lt_iff_lt.2 hab, ?_, ?_⟩
    · rw [ho.siteAt_of_parent (hparent a ha), hnodup.idxOf_getElem a ha]
    · rw [ho.siteAt_of_parent (hparent b hb), hnodup.idxOf_getElem b hb]
  · intro id hpos hid
    obtain ⟨n, hn, hread, -⟩ := hstands id hid
    exact ⟨n, hn, hread (ho.siteAt_ne_nil hpos hid)⟩
  · intro id p hp hpos q m hq hm
    have hid := lt_size_of_parent? hp
    have hlt := ho.parent_lt id p hp
    have hchild := (hstands p (by omega)).child (ho.child_idxOf hp) fun n hn => hplace _ n hn _
    rw [ho.siteAt_of_parent hp] at hm
    have hpart := hchild.2 q hq m hm
    rwa [partsAt, if_neg (ho.siteAt_ne_nil hpos (by omega))] at hpart

/-- An outline is well linked when every number with a role reads some node. -/
theorem WellNumbered.wellLinked (ho : o.WellNumbered)
    (hreads : ∀ id, o.role id ≠ .other → ∃ n, o.ReadsAt source id n) : o.WellLinked where
  qualified := by
    intro id name s rooted hrole
    obtain ⟨n, hread⟩ := hreads id (by rw [hrole]; simp)
    obtain ⟨hchildren, hrooted, -⟩ := hread.reference hrole
    have hs : s ∈ o.children id := by rw [hchildren]; exact List.mem_singleton.2 rfl
    exact ⟨hchildren, (ho.mem_children_iff s id).1 hs, hrooted (by simp)⟩
  bare := by
    intro id name rooted hrole
    obtain ⟨n, hread⟩ := hreads id (by rw [hrole]; simp)
    exact (hread.reference hrole).1
  header := by
    intro id segs h hrole
    obtain ⟨n, hread⟩ := hreads id (by rw [hrole]; simp)
    obtain ⟨hmem, hreference, hsegs⟩ := (hread.declaration hrole).2 h rfl
    exact ⟨(ho.mem_children_iff h id).1 hmem, hreference, hsegs⟩
  headerless := by
    intro id segs hrole
    obtain ⟨n, hread⟩ := hreads id (by rw [hrole]; simp)
    exact (hread.declaration hrole).1 rfl

/-- A constant that only names something is not where a number comes from. -/
theorem IsTrace.site_ne {site : Nat → List Nat} {above : List Nat} {q m : Tree}
    (htrace : o.IsTrace source root site) (ho : o.WellNumbered)
    (hparts : ∀ id p, o.parent? id = some p → 0 < p →
      ∀ q m, root.at? (site p) = some q → root.at? (site id) = some m → m ∈ parts q)
    (habove : above ≠ []) (hq : root.at? above = some q) (hm : q.children[i]? = some m)
    (hnames : q.OnlyNames m) (hid : id < o.size) : site id ≠ above ++ [i] := by
  intro hsite
  -- the parent of such a number would stand at the node that the constant names something in
  have hpos : 0 < id := by
    refine Nat.pos_of_ne_zero ?_
    rintro rfl
    rw [htrace.top] at hsite
    simp at hsite
  obtain ⟨p, hp⟩ := ho.exists_parent hpos hid
  obtain ⟨j, hj⟩ := htrace.inside id p hp
  rw [hsite] at hj
  obtain ⟨rfl, hij⟩ := List.append_inj' hj rfl
  have hp0 : 0 < p := by
    refine Nat.pos_of_ne_zero ?_
    rintro rfl
    exact habove htrace.top
  have hat : root.at? (site id) = some m := by
    rw [hsite, Tree.at?_concat, hq, Option.bind_some, hm]
  exact not_mem_parts hnames (hparts id p hp hp0 q m hq hat)

/-- **The links of every file are sound.** The scope of a use is its only child, the header of a
declaration is one of its children, and the declared names are those of the header. Every number
comes from a node of the syntax tree, so that a use is rooted exactly when that node is a chain
without a scope; and below the top, which is the file itself, no number comes from a constant that
names the method of a call or is assigned. -/
theorem wellLinked_ofTree (source : Source) (root : Tree) :
    (ofTree source root).WellLinked ∧
    ∃ site, (ofTree source root).IsTrace source root site ∧
      (∀ id name scope rooted, (ofTree source root).role id = .reference name scope rooted →
        ∃ n, root.at? (site id) = some n ∧
          (rooted = true ↔ n.kind = .scopeResolution ∧ n.child? .scope = none)) ∧
      ∀ above q i m, above ≠ [] → root.at? above = some q → q.children[i]? = some m →
        q.OnlyNames m → ∀ id < (ofTree source root).size, site id ≠ above ++ [i] := by
  obtain ⟨site, htrace, hparts⟩ := exists_trace source root
  set o := ofTree source root
  have ho : o.WellNumbered := wellNumbered_ofItem (ofRoot source root)
  have htop : o.role 0 = .other := (holds_ofItem (ofRoot source root)).role_eq
  have hreads : ∀ id, o.role id ≠ .other →
      ∃ n, root.at? (site id) = some n ∧ o.ReadsAt source id n := by
    intro id hrole
    refine htrace.reads id (Nat.pos_of_ne_zero ?_) (lt_size_of_role hrole)
    rintro rfl
    exact hrole htop
  refine ⟨?_, site, htrace, ?_, ?_⟩
  · have hsome : ∀ id, o.role id ≠ .other → ∃ n, o.ReadsAt source id n := fun id hrole =>
      (hreads id hrole).imp fun n hn => hn.2
    exact ho.wellLinked hsome
  · intro id name scope rooted hrole
    obtain ⟨n, hn, hread⟩ := hreads id (by rw [hrole]; simp)
    exact ⟨n, hn, (hread.reference hrole).2.2⟩
  · intro above q i m habove hq hm hnames id hid
    exact htrace.site_ne ho hparts habove hq hm hnames hid

end Outline

end RubyLint
