import Mathlib
import RubyLint.Proofs.FrozenFix
import RubyLint.Proofs.Placement
import RubyLint.Proofs.Splice

/-!
# A mended constant is written with its full path

The fix of a constant takes one of two ways: it replaces the whole chain by the path that the file
defines, or it only puts a separator in front of the chain. Both lead to the same text, the full path of
what the chain refers to: the second way is taken when that path is the chain itself.

* `Outline.Written`: a chain as it stands in the source.
* `Outline.Written.start_eq`: the left end of a chain starts where the chain starts.
* `ConstantPrefix.target`: the path that a chain refers to.
* `ConstantPrefix.woven_edit`: the edit of a fix turns the chain into that path.
* `ConstantPrefix.applyFixes_qualifies`: **both ways of mending a constant write its full path.**
-/

namespace RubyLint

open Text Edit

/-- Joined parts with one more separator in front. -/
theorem append_intercalate {α : Type} (sep x : List α) (xs : List (List α)) :
    sep ++ sep.intercalate (x :: xs) = (x :: xs).flatMap (sep ++ ·) := by
  induction xs generalizing x with
  | nil => rw [List.intercalate_singleton, List.flatMap_cons, List.flatMap_nil, List.append_nil]
  | cons y ys ih =>
    rw [List.intercalate_cons_cons, List.append_assoc, ih, List.flatMap_cons (x := x),
      List.append_assoc]

/-- A path written from the root is a separator in front of the joined names. -/
theorem NamePath.toList_render_joined {p : NamePath} (separator : String) (h : p.segments ≠ []) :
    (p.render separator).toList =
      separator.toList ++ (separator.intercalate p.segments).toList := by
  obtain ⟨s, segments, hs⟩ := List.exists_cons_of_ne_nil h
  rw [NamePath.toList_render, String.toList_intercalate, hs, List.map_cons, append_intercalate,
    ← List.map_cons, List.flatMap_map]

namespace Outline

variable {o : Outline} {source : Source} {id top left : Nat}

theorem chainSegments_ne_nil (h : o.isReference id = true) : o.chainSegments id ≠ [] := by
  obtain ⟨name, scope, rooted, hrole⟩ : ∃ name scope rooted, o.role id = .reference name scope rooted := by
    unfold isReference at h
    split at h
    · rename_i name scope rooted hrole; exact ⟨name, scope, rooted, hrole⟩
    · cases h
  have hsize : id < o.size := lt_size_of_role (by rw [hrole]; simp)
  obtain ⟨n, hn⟩ : ∃ n, o.size = n + 1 := ⟨o.size - 1, by omega⟩
  unfold chainSegments
  rw [hn, descendChain, hrole]
  simp

/-- **A chain as it stands in the source**: its range holds its names, joined by `::`, and what qualifies
a part of it starts where that part starts. -/
structure Written (source : Source) (o : Outline) (top : Nat) : Prop where
  text : slice? (o.span top).start (o.span top).stop source.chars =
    some ("::".intercalate (o.chainSegments top)).toList
  aligned : ∀ a s, Relation.ReflTransGen o.Link top a → o.scope? a = some s →
    (o.span s).start = (o.span a).start

/-- The left end of a chain starts where the chain starts. -/
theorem Written.start_eq (h : o.Written source top)
    (hlinks : Relation.ReflTransGen o.Link top left) :
    (o.span left).start = (o.span top).start := by
  induction hlinks with
  | refl => rfl
  | tail hlinks hlink ih => exact (h.aligned _ _ hlinks hlink).trans ih

end Outline

namespace ConstantPrefix

open Outline

variable {r : ConstantPrefix} {ctx : FileContext} {o : Outline} {id : Nat}

/-- The violation of a use. -/
def violation (r : ConstantPrefix) (ctx : FileContext) (o : Outline) (id : Nat) : Violation :=
  r.info.violation (ctx.locate (o.span id)) r.message (r.suggestion ctx o id)

/-- **The path that the chain of a use refers to**: the one that the file defines, or else the chain
itself, seen from the root. -/
def target (o : Outline) (id : Nat) : NamePath :=
  (o.locate? (o.chainSegments (o.chainTop id)) (o.contextPath id)).getD
    ⟨o.chainSegments (o.chainTop id)⟩

/-- A path to write is the one that the chain refers to. -/
theorem target_of_some {path : NamePath} (h : fullPath? o id = some path) : target o id = path := by
  unfold target
  rw [(Option.filter_eq_some_iff.1 h).1, Option.getD_some]

/-- When there is no path to write, the chain refers to itself. -/
theorem target_of_none (h : fullPath? o id = none) :
    target o id = ⟨o.chainSegments (o.chainTop id)⟩ := by
  unfold target
  cases hlocate : o.locate? (o.chainSegments (o.chainTop id)) (o.contextPath id) with
  | none => rfl
  | some path =>
    have hsame : path.segments = o.chainSegments (o.chainTop id) := by
      simpa [fullPath?, hlocate] using h
    rw [Option.getD_some, ← hsame]

/-- **The edit of a fix turns the chain into the path that it refers to.** -/
theorem woven_edit (ctx : FileContext) {front chain : List Char} (back : List Char)
    (hsep : r.separator = "::") (href : o.isReference (o.chainTop id) = true)
    (hchain : chain = ("::".intercalate (o.chainSegments (o.chainTop id))).toList)
    (hfront : width front = (o.span (o.chainTop id)).start)
    (hstop : width front + width chain = (o.span (o.chainTop id)).stop)
    (hstart : (o.span id).start = (o.span (o.chainTop id)).start) :
    Woven 0 [r.edit ctx o id] (front ++ (chain ++ back))
      (front ++ (((target o id).render "::").toList ++ back)) := by
  cases hpath : fullPath? o id with
  | some path =>
    have hedit : r.edit ctx o id =
        ⟨ctx.locate (o.span (o.chainTop id)), path.render "::"⟩ := by
      unfold edit; rw [hpath, hsep]
    rw [hedit, target_of_some hpath]
    refine .edit front chain (by rw [Nat.zero_add]; exact hfront) ?_ (.done _ back)
    change width chain = (o.span (o.chainTop id)).stop - (o.span (o.chainTop id)).start
    omega
  | none =>
    -- the chain is kept, and the separator makes it the path that it refers to
    have hedit : r.edit ctx o id =
        ⟨ctx.location (o.span id).start (o.span id).start, "::"⟩ := by
      unfold edit; rw [hpath, hsep]
    have htext : ((target o id).render "::").toList = "::".toList ++ chain := by
      rw [target_of_none hpath, hchain]
      exact NamePath.toList_render_joined "::" (chainSegments_ne_nil href)
    rw [hedit, htext, List.append_assoc]
    refine .edit front [] (by rw [Nat.zero_add, hfront]; exact hstart.symm) ?_ (.done _ (chain ++ back))
    exact (Nat.sub_self _).symm

/-- **Both ways of mending a constant write its full path.** For every use that the rule reports with the
separator `::`, if its chain stands in the source as its names joined by `::`, the fix of that use alone
turns the text of the chain into the path that it refers to, written from the root, and leaves
everything else as it is. -/
theorem applyFixes_qualifies (r : ConstantPrefix) (ctx : FileContext) (root : Tree) (o : Outline)
    (ho : o = .ofTree ctx.source root) (hsep : r.separator = "::") (id : Nat)
    (hid : id ∈ r.flagged o) (hwritten : o.Written ctx.source (o.chainTop id)) :
    r.violation ctx o id ∈ r.check ctx o ∧
      ∃ front chain back, ctx.source.chars = front ++ (chain ++ back) ∧
        width front = (o.span (o.chainTop id)).start ∧
        width front + width chain = (o.span (o.chainTop id)).stop ∧
        chain = ("::".intercalate (o.chainSegments (o.chainTop id))).toList ∧
        Violation.applyFixes ctx.source.content [r.violation ctx o id] =
          ⟨String.ofList (front ++ (((target o id).render "::").toList ++ back)), 1, 0⟩ := by
  have hlinked : o.Linked := ho ▸ linked_ofItem (Item.ofRoot ctx.source root)
  have hchain := (offends_of_mem_flagged hlinked hid).chain
  obtain ⟨front, back, hsplit, hfront, hstop⟩ := slice?_eq_some_iff.1 hwritten.text
  refine ⟨List.mem_map_of_mem hid, front, _, back, hsplit, hfront, hstop, rfl, ?_⟩
  have hwoven := woven_edit ctx back hsep hchain.reference rfl hfront hstop
    (hwritten.start_eq hchain.links)
  rw [← hsplit, ctx.source.chars_eq] at hwoven
  have hedit : (r.violation ctx o id).edit? = some (r.edit ctx o id) := r.suggestion_edit ctx o id
  unfold Violation.applyFixes
  rw [List.filterMap_cons_some hedit, List.filterMap_nil, applyAll_of_woven hwoven]
  rfl

/-- The outline of a module with two uses. -/
def twoUsesOutline : Outline :=
  .ofTree twoUses.source twoUsesTree

theorem written_twoUses : ∀ id ∈ flagged {} twoUsesOutline,
    twoUsesOutline.Written twoUses.source (twoUsesOutline.chainTop id) := by
  have htext : ∀ id ∈ flagged {} twoUsesOutline,
      slice? (twoUsesOutline.span (twoUsesOutline.chainTop id)).start
          (twoUsesOutline.span (twoUsesOutline.chainTop id)).stop twoUses.source.chars =
        some ("::".intercalate
          (twoUsesOutline.chainSegments (twoUsesOutline.chainTop id))).toList := by
    decide +kernel
  have haligned : ∀ a < twoUsesOutline.size, ∀ s ∈ twoUsesOutline.scope? a,
      (twoUsesOutline.span s).start = (twoUsesOutline.span a).start := by
    decide +kernel
  intro id hid
  refine ⟨htext id hid, fun a s _ hscope => haligned a ?_ s hscope⟩
  obtain ⟨name, rooted, hrole⟩ := scope?_eq_some_iff.1 hscope
  exact lt_size_of_role (by rw [hrole]; simp)

/-- The chain `B::C` is replaced and `D` gets a separator, and both end up as the path that they refer
to. -/
theorem applyFixes_qualifies_twoUses :
    flagged {} twoUsesOutline = [7, 8] ∧
      (target twoUsesOutline 7).render "::" = "::A::B::C" ∧
      (target twoUsesOutline 8).render "::" = "::D" ∧
      ∀ id ∈ flagged {} twoUsesOutline,
        twoUsesOutline.Written twoUses.source (twoUsesOutline.chainTop id) ∧
        ∃ front chain back, twoUses.source.chars = front ++ (chain ++ back) ∧
          width front = (twoUsesOutline.span (twoUsesOutline.chainTop id)).start ∧
          Violation.applyFixes twoUses.source.content [violation {} twoUses twoUsesOutline id] =
            ⟨String.ofList (front ++ (((target twoUsesOutline id).render "::").toList ++ back)), 1,
              0⟩ := by
  refine ⟨by decide +kernel, by decide +kernel, by decide +kernel, fun id hid => ?_⟩
  have hwritten := written_twoUses id hid
  obtain ⟨-, front, chain, back, hsplit, hfront, -, -, hfixed⟩ :=
    applyFixes_qualifies {} twoUses twoUsesTree twoUsesOutline rfl rfl id hid hwritten
  exact ⟨hwritten, front, chain, back, hsplit, hfront, hfixed⟩

end ConstantPrefix

end RubyLint
