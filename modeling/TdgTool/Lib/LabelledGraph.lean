/-
TdgTool/Lib/LabelledGraph.lean

Directed graphs with labelled nodes, up to the names of the nodes.

A graph is a set of names with a label at each of them and a number of edges
from each to each, so that a doubled edge is not the same as a single one.  Two
graphs are `Isomorphic` when some renaming of the nodes carries one to the
other.  What is isomorphic to a common graph is isomorphic (`Isomorphic.of_common`),
which is how two runs are compared through a reference.
-/
import Mathlib.Data.Set.Function

/-- A directed graph on part of a type, with labelled nodes. -/
structure LabelledGraph (α β : Type*) where
  nodes : Set α
  label : α → β
  edges : α → α → ℕ

namespace LabelledGraph

variable {α α' α'' β : Type*} {G : LabelledGraph α β} {H : LabelledGraph α' β}
  {K : LabelledGraph α'' β}

/-- The renaming carries the nodes of one graph to those of the other, with their
labels and edges. -/
structure Renames (f : α → α') (G : LabelledGraph α β) (H : LabelledGraph α' β) : Prop where
  bij : Set.BijOn f G.nodes H.nodes
  label : ∀ x ∈ G.nodes, H.label (f x) = G.label x
  edges : ∀ x ∈ G.nodes, ∀ y ∈ G.nodes, H.edges (f x) (f y) = G.edges x y

/-- The graphs differ only in the names of the nodes. -/
def Isomorphic (G : LabelledGraph α β) (H : LabelledGraph α' β) : Prop := ∃ f, Renames f G H

theorem Isomorphic.symm [Nonempty α] (h : G.Isomorphic H) : H.Isomorphic G := by
  obtain ⟨f, hf⟩ := h
  have hinv := hf.bij.invOn_invFunOn
  have hbij := hf.bij.symm hinv.symm
  refine ⟨Function.invFunOn f G.nodes, hbij, fun y hy => ?_, fun y hy z hz => ?_⟩
  · rw [← hf.label _ (hbij.mapsTo hy), hinv.2 hy]
  · rw [← hf.edges _ (hbij.mapsTo hy) _ (hbij.mapsTo hz), hinv.2 hy, hinv.2 hz]

theorem Isomorphic.trans (h : G.Isomorphic H) (h' : H.Isomorphic K) : G.Isomorphic K := by
  obtain ⟨f, hf⟩ := h
  obtain ⟨f', hf'⟩ := h'
  refine ⟨f' ∘ f, hf'.bij.comp hf.bij, fun x hx => ?_, fun x hx y hy => ?_⟩
  · exact (hf'.label _ (hf.bij.mapsTo hx)).trans (hf.label x hx)
  · exact (hf'.edges _ (hf.bij.mapsTo hx) _ (hf.bij.mapsTo hy)).trans (hf.edges x hx y hy)

/-- **Comparison through a reference.** -/
theorem Isomorphic.of_common [Nonempty α] (h : G.Isomorphic H) (h' : G.Isomorphic K) :
    H.Isomorphic K :=
  h.symm.trans h'

end LabelledGraph
