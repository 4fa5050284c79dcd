import Mathlib.Data.List.Infix
import RubyLint.Outline.Resolve

/-!
# Resolution walks outwards

The resolver scans all definitions of a name once and keeps the nearest so far. That is the same as
walking outwards from the namespace of the use and stopping at the first one that defines the name.

* `NamePath.enclosing`, `scopeWalk`: the walk.
* `Nearest`, `Scanned`: what the scan knows of the definitions that it has seen.
* `Scanned.better` (scan step), `scanned_foldl` (whole scan).
* `locate?_eq_scopeWalk`: **the resolver is the walk**, for every outline, use and namespace.
-/

namespace RubyLint

namespace NamePath

/-- The namespaces around a place, from its own outwards to the root. -/
def enclosing (p : NamePath) : List NamePath :=
  p.segments.inits.reverse.map NamePath.mk

theorem startsWith_iff {p d : NamePath} :
    p.startsWith d = true ↔ ∃ inner, p.segments = d.segments ++ inner := by
  unfold startsWith
  rw [List.isPrefixOf_iff_prefix]
  exact ⟨fun ⟨inner, h⟩ => ⟨inner, h.symm⟩, fun ⟨inner, h⟩ => ⟨inner, h.symm⟩⟩

theorem startsWith_of_mem_enclosing {p d : NamePath} (h : d ∈ p.enclosing) :
    p.startsWith d = true := by
  unfold enclosing at h
  obtain ⟨l, hl, rfl⟩ := List.mem_map.1 h
  rw [List.mem_reverse, List.mem_inits] at hl
  exact List.isPrefixOf_iff_prefix.2 hl

/-- Inside of an enclosing namespace the walk meets only longer ones. -/
theorem enclosing_split {p d : NamePath} (h : p.startsWith d = true) :
    ∃ inside outside, p.enclosing = inside ++ d :: outside ∧
      ∀ x ∈ inside, p.startsWith x = true ∧ d.length < x.length := by
  obtain ⟨inner, hinner⟩ := startsWith_iff.1 h
  have hinits : p.segments.inits =
      d.segments.inits ++ inner.inits.tail.map (d.segments ++ ·) := by
    rw [hinner, List.inits_append]
  obtain ⟨outer, houter⟩ : ∃ outer, d.segments.inits = outer ++ [d.segments] := by
    rcases List.eq_nil_or_concat d.segments with hd | ⟨l, x, hd⟩
    · exact ⟨[], by rw [hd]; rfl⟩
    · refine ⟨l.inits, ?_⟩
      rw [hd, List.concat_eq_append, List.inits_append]
      rfl
  refine ⟨((inner.inits.tail.map (d.segments ++ ·)).reverse).map NamePath.mk,
    outer.reverse.map NamePath.mk, ?_, ?_⟩
  · unfold enclosing
    rw [hinits, houter]
    simp
  · intro x hx
    obtain ⟨l, hl, rfl⟩ := List.mem_map.1 hx
    rw [List.mem_reverse] at hl
    obtain ⟨k, hk, rfl⟩ := List.mem_map.1 hl
    have hpre : k <+: inner := (List.mem_inits k inner).1 (List.mem_of_mem_tail hk)
    have hne : k ≠ [] := by
      rintro rfl
      cases inner with
      | nil => cases hk
      | cons a inner => simp at hk
    constructor
    · obtain ⟨m, rfl⟩ := hpre
      exact startsWith_iff.2 ⟨m, by rw [hinner, List.append_assoc]⟩
    · have := List.length_pos_iff.2 hne
      simp only [length, List.length_append]
      omega

end NamePath

namespace Outline

variable {ctx : NamePath} {cs : List Candidate} {b c : Candidate} {fit : Fit}
  {best : Option (Fit × Candidate)}

/-- The namespace that a use in `ctx` means, when its name is defined in `contexts`: the first of
those around it that is among them; for a use at the root also the first of them at all. -/
def scopeWalk (contexts : List NamePath) (ctx : NamePath) : Option NamePath :=
  match ctx.enclosing.find? (· ∈ contexts) with
  | some d => some d
  | none => if ctx.isRoot then contexts.head? else none

/-- Among the candidates `cs`, `c` is the first of those that fit a use in `ctx` best. -/
structure Nearest (ctx : NamePath) (cs : List Candidate) (fit : Fit) (c : Candidate) : Prop where
  fits : fit? c.context ctx = some fit
  best : ∀ d ∈ cs, ∀ f, fit? d.context ctx = some f → f.nearer fit = false
  first : ∃ earlier later, cs = earlier ++ c :: later ∧
    ∀ d ∈ earlier, ∀ f, fit? d.context ctx = some f → fit.nearer f = true

/-- **What the scan knows** of the candidates that it has seen: the nearest one, or that none is in
reach. -/
def Scanned (ctx : NamePath) (cs : List Candidate) : Option (Fit × Candidate) → Prop
  | none => ∀ d ∈ cs, fit? d.context ctx = none
  | some (fit, c) => Nearest ctx cs fit c

theorem Fit.nearer_irrefl (a : Fit) : a.nearer a = false := by
  cases a <;> simp [nearer]

theorem Fit.nearer_asymm {a b : Fit} (h : a.nearer b = true) : b.nearer a = false := by
  cases a <;> cases b <;> simp_all [nearer]; omega

/-- What is nearer than one fit is nearer than all that do not beat it. -/
theorem Fit.nearer_of_not_nearer {a b top : Fit} (ha : a.nearer top = true)
    (hb : b.nearer top = false) : a.nearer b = true := by
  cases a <;> cases b <;> cases top <;> simp_all [nearer]; omega

theorem Nearest.append_keep (h : Nearest ctx cs fit b)
    (hc : ∀ f, fit? c.context ctx = some f → f.nearer fit = false) :
    Nearest ctx (cs ++ [c]) fit b := by
  obtain ⟨earlier, later, rfl, hearlier⟩ := h.first
  refine ⟨h.fits, ?_, earlier, later ++ [c], by simp, hearlier⟩
  intro d hd f hf
  rcases List.mem_append.1 hd with hd | hd
  · exact h.best d hd f hf
  · rw [List.mem_singleton.1 hd] at hf; exact hc f hf

/-- **The scan step.** One more candidate is seen; it replaces the best so far only if it is nearer. -/
theorem Scanned.better (h : Scanned ctx cs best) (c : Candidate) :
    Scanned ctx (cs ++ [c]) (Outline.better ctx best c) := by
  unfold Outline.better
  cases hfit : fit? c.context ctx with
  | none =>
    -- out of reach: nothing changes
    rcases best with _ | ⟨top, b⟩
    · intro d hd
      rcases List.mem_append.1 hd with hd | hd
      · exact h d hd
      · rw [List.mem_singleton.1 hd]; exact hfit
    · exact Nearest.append_keep h fun f hf => by rw [hfit] at hf; cases hf
  | some fit =>
    rcases best with _ | ⟨top, b⟩
    · -- the first one in reach
      refine ⟨hfit, ?_, cs, [], rfl, fun d hd f hf => by rw [h d hd] at hf; cases hf⟩
      intro d hd f hf
      rcases List.mem_append.1 hd with hd | hd
      · rw [h d hd] at hf; cases hf
      · rw [List.mem_singleton.1 hd, hfit] at hf
        cases hf; exact fit.nearer_irrefl
    · cases hnear : fit.nearer top with
      | false =>
        simp only [hnear, Bool.false_eq_true, if_false]
        refine Nearest.append_keep h fun f hf => ?_
        rw [hfit] at hf; cases hf; exact hnear
      | true =>
        simp only [hnear, if_true]
        have hbeats : ∀ d ∈ cs, ∀ f, fit? d.context ctx = some f → fit.nearer f = true :=
          fun d hd f hf => Fit.nearer_of_not_nearer hnear (h.best d hd f hf)
        refine ⟨hfit, ?_, cs, [], rfl, hbeats⟩
        intro d hd f hf
        rcases List.mem_append.1 hd with hd | hd
        · exact Fit.nearer_asymm (hbeats d hd f hf)
        · rw [List.mem_singleton.1 hd, hfit] at hf
          cases hf; exact fit.nearer_irrefl

/-- **The whole scan** knows the nearest one of all candidates. -/
theorem scanned_foldl (ctx : NamePath) (cs : List Candidate) :
    Scanned ctx cs (cs.foldl (better ctx) none) := by
  suffices h : ∀ (seen : List Candidate) (best : Option (Fit × Candidate)), Scanned ctx seen best →
      Scanned ctx (seen ++ cs) (cs.foldl (better ctx) best) from
    h [] none fun d hd => by cases hd
  induction cs with
  | nil => intro seen best h; rw [List.append_nil]; exact h
  | cons c cs ih =>
    intro seen best h
    have hnext := ih (seen ++ [c]) (better ctx best c) (h.better c)
    rw [List.append_assoc] at hnext
    exact hnext

theorem fit?_around {d : NamePath} (h : ctx.startsWith d = true) :
    fit? d ctx = some (.enclosing d.length) := by
  rw [fit?, if_pos h]

theorem fit?_elsewhere {d : NamePath} (h : ctx.startsWith d = false) (hroot : ctx.isRoot = true) :
    fit? d ctx = some .elsewhere := by
  rw [fit?, if_neg (by rw [h]; exact Bool.false_ne_true), if_pos hroot]

theorem startsWith_of_fit? {d : NamePath} {n : Nat} (h : fit? d ctx = some (.enclosing n)) :
    ctx.startsWith d = true ∧ n = d.length := by
  unfold fit? at h
  split at h
  · rename_i hd; cases h; exact ⟨hd, rfl⟩
  · split at h <;> cases h

theorem isRoot_of_fit? {d : NamePath} (h : fit? d ctx = some .elsewhere) : ctx.isRoot = true := by
  unfold fit? at h
  split at h
  · cases h
  · split at h
    · assumption
    · cases h

/-- The walk stops at the deepest of the namespaces around a use that define the name. -/
theorem scopeWalk_around {contexts : List NamePath} {d : NamePath} (hd : d ∈ contexts)
    (hencl : ctx.startsWith d = true)
    (hdeep : ∀ x ∈ contexts, ctx.startsWith x = true → x.length ≤ d.length) :
    scopeWalk contexts ctx = some d := by
  obtain ⟨inside, outside, hsplit, hinside⟩ := NamePath.enclosing_split hencl
  have hfind : ctx.enclosing.find? (· ∈ contexts) = some d := by
    rw [List.find?_eq_some_iff_append]
    refine ⟨decide_eq_true hd, inside, outside, hsplit, fun x hx => ?_⟩
    obtain ⟨hx, hlong⟩ := hinside x hx
    have hnot : x ∉ contexts := fun hmem => by have := hdeep x hmem hx; omega
    simp [hnot]
  unfold scopeWalk
  rw [hfind]

/-- Past all namespaces around a use, the walk has an answer only at the root. -/
theorem scopeWalk_outside {contexts : List NamePath}
    (h : ∀ x ∈ contexts, ctx.startsWith x = false) :
    scopeWalk contexts ctx = if ctx.isRoot then contexts.head? else none := by
  have hfind : ctx.enclosing.find? (· ∈ contexts) = none := by
    rw [List.find?_eq_none]
    intro x hx hmem
    have hin := NamePath.startsWith_of_mem_enclosing hx
    rw [h x (of_decide_eq_true hmem)] at hin; cases hin
  unfold scopeWalk
  rw [hfind]

/-- The scan and the walk find the same namespace. -/
theorem Scanned.context_eq (h : Scanned ctx cs best) :
    best.map (·.2.context) = scopeWalk (cs.map (·.context)) ctx := by
  rcases best with _ | ⟨_ | depth, c⟩
  · -- nothing in reach: no namespace around the use, and the use is not at the root
    have hout : ∀ d ∈ cs, ctx.startsWith d.context = false := fun d hd => by
      cases hs : ctx.startsWith d.context with
      | false => rfl
      | true => have := h d hd; rw [fit?_around hs] at this; cases this
    rw [scopeWalk_outside (by simpa using hout)]
    cases hroot : ctx.isRoot with
    | false => rfl
    | true =>
      cases cs with
      | nil => rfl
      | cons d cs =>
        have := h d List.mem_cons_self
        rw [fit?_elsewhere (hout d List.mem_cons_self) hroot] at this; cases this
  · -- elsewhere: none is around the use, so the best is the first of all
    have hroot := isRoot_of_fit? h.fits
    have hout : ∀ d ∈ cs, ctx.startsWith d.context = false := fun d hd => by
      cases hs : ctx.startsWith d.context with
      | false => rfl
      | true => exact absurd (h.best d hd _ (fit?_around hs)) (by simp [Fit.nearer])
    rw [scopeWalk_outside (by simpa using hout), if_pos hroot]
    obtain ⟨earlier, later, hsplit, hearlier⟩ := h.first
    cases earlier with
    | nil => rw [hsplit]; rfl
    | cons d earlier =>
      have hd : d ∈ cs := hsplit ▸ List.mem_cons_self
      have := hearlier d List.mem_cons_self _ (fit?_elsewhere (hout d hd) hroot)
      cases this
  · -- around the use: no other one is deeper
    obtain ⟨hencl, rfl⟩ := startsWith_of_fit? h.fits
    obtain ⟨earlier, later, hsplit, -⟩ := h.first
    have hmem : c ∈ cs := hsplit ▸ List.mem_append_right _ List.mem_cons_self
    symm
    apply scopeWalk_around (List.mem_map_of_mem hmem) hencl
    intro x hx hxs
    obtain ⟨d, hd, rfl⟩ := List.mem_map.1 hx
    have := h.best d hd _ (fit?_around hxs)
    simpa [Fit.nearer] using this

/-- **The resolver is a walk outwards.** For every outline, use and namespace, what the single scan
finds is what a walk from the namespace of the use outwards through its enclosing ones finds among
the namespaces that define the first name, in the order of their definitions. A use without a name
has no answer. -/
theorem locate?_eq_scopeWalk (o : Outline) (names : List String) (ctx : NamePath) :
    o.locate? names ctx =
      names.head?.bind fun first =>
        (scopeWalk ((o.candidates first).map (·.context)) ctx).map (·.join names) := by
  cases names with
  | nil => rfl
  | cons first names =>
    have h := (scanned_foldl ctx (o.candidates first)).context_eq
    rw [List.head?_cons, Option.bind_some, ← h, Option.map_map]
    rfl

end Outline

end RubyLint
