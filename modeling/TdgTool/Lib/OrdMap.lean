/-
TdgTool/Lib/OrdMap.lean

Ordered maps as strictly sorted association lists: the iteration order of a
`std::map`.  The sortedness proof is a field, so an unsorted map cannot be
built.  Inserting an existing key replaces its value.
-/
import Mathlib

namespace Tdg

/-- A finite map from an ordered key type, iterated in key order. -/
structure OrdMap (κ β : Type*) [LinearOrder κ] where
  entries : List (κ × β)
  sorted : entries.Pairwise fun a b => a.1 < b.1

namespace OrdMap

variable {κ : Type*} [LinearOrder κ] {β γ : Type*}

@[ext] theorem ext {m m' : OrdMap κ β} (h : m.entries = m'.entries) : m = m' := by
  cases m
  cases m'
  cases h
  rfl

/-- The empty map. -/
def empty : OrdMap κ β := ⟨[], List.Pairwise.nil⟩

instance : Inhabited (OrdMap κ β) := ⟨empty⟩

/-! ### Insertion -/

/-- Insert into a sorted list, replacing the value of an equal key. -/
def insertList (k : κ) (v : β) : List (κ × β) → List (κ × β)
  | [] => [(k, v)]
  | a :: l =>
      if k < a.1 then (k, v) :: a :: l
      else if k = a.1 then (k, v) :: l
      else a :: insertList k v l

theorem mem_insertList {k : κ} {v : β} {l : List (κ × β)}
    (hs : l.Pairwise fun a b => a.1 < b.1) {a : κ × β} :
    a ∈ insertList k v l ↔ a = (k, v) ∨ a ∈ l ∧ a.1 ≠ k := by
  induction l with
  | nil => simp [insertList]
  | cons b l ih =>
    obtain ⟨hb, hl⟩ := List.pairwise_cons.mp hs
    unfold insertList
    -- in front of the head, in its place, or behind it
    by_cases h1 : k < b.1
    · have hgt : ∀ c ∈ b :: l, c.1 ≠ k := by
        intro c hc
        rcases List.mem_cons.mp hc with rfl | hc
        · exact h1.ne'
        · exact (h1.trans (hb c hc)).ne'
      rw [if_pos h1, List.mem_cons]
      exact or_congr_right ⟨fun h => ⟨h, hgt a h⟩, fun h => h.1⟩
    · rw [if_neg h1]
      by_cases h2 : k = b.1
      · have hgt : ∀ c ∈ l, c.1 ≠ k := fun c hc => by rw [h2]; exact (hb c hc).ne'
        rw [if_pos h2, List.mem_cons, List.mem_cons]
        constructor
        · rintro (h | h)
          · exact .inl h
          · exact .inr ⟨.inr h, hgt a h⟩
        · rintro (h | ⟨rfl | h, hk⟩)
          · exact .inl h
          · exact absurd h2.symm hk
          · exact .inr h
      · rw [if_neg h2, List.mem_cons, ih hl, List.mem_cons]
        constructor
        · rintro (rfl | h | ⟨h, hk⟩)
          · exact .inr ⟨.inl rfl, fun h => h2 h.symm⟩
          · exact .inl h
          · exact .inr ⟨.inr h, hk⟩
        · rintro (h | ⟨h | h, hk⟩)
          · exact .inr (.inl h)
          · exact .inl h
          · exact .inr (.inr ⟨h, hk⟩)

theorem sorted_insertList {k : κ} {v : β} {l : List (κ × β)}
    (hs : l.Pairwise fun a b => a.1 < b.1) :
    (insertList k v l).Pairwise fun a b => a.1 < b.1 := by
  induction l with
  | nil => simp [insertList]
  | cons b l ih =>
    obtain ⟨hb, hl⟩ := List.pairwise_cons.mp hs
    unfold insertList
    by_cases h1 : k < b.1
    · rw [if_pos h1]
      refine List.pairwise_cons.mpr ⟨fun c hc => ?_, hs⟩
      rcases List.mem_cons.mp hc with rfl | hc
      · exact h1
      · exact h1.trans (hb c hc)
    · rw [if_neg h1]
      by_cases h2 : k = b.1
      · rw [if_pos h2]
        exact List.pairwise_cons.mpr ⟨fun c hc => h2 ▸ hb c hc, hl⟩
      · rw [if_neg h2]
        have hlt : b.1 < k := lt_of_le_of_ne (not_lt.mp h1) (Ne.symm h2)
        refine List.pairwise_cons.mpr ⟨fun c hc => ?_, ih hl⟩
        -- what is behind the head is an old entry or the new one
        rcases (mem_insertList hl).mp hc with rfl | ⟨hc, -⟩
        · exact hlt
        · exact hb c hc

/-- `m[k] = v`. -/
def insert (m : OrdMap κ β) (k : κ) (v : β) : OrdMap κ β :=
  ⟨insertList k v m.entries, sorted_insertList m.sorted⟩

@[simp] theorem mem_insert {m : OrdMap κ β} {k : κ} {v : β} {a : κ × β} :
    a ∈ (m.insert k v).entries ↔ a = (k, v) ∨ a ∈ m.entries ∧ a.1 ≠ k :=
  mem_insertList m.sorted

/-! ### Removal and lookup -/

/-- Remove a key. -/
def erase (m : OrdMap κ β) (k : κ) : OrdMap κ β :=
  ⟨m.entries.filter fun a => a.1 ≠ k, m.sorted.filter _⟩

@[simp] theorem mem_erase {m : OrdMap κ β} {k : κ} {a : κ × β} :
    a ∈ (m.erase k).entries ↔ a ∈ m.entries ∧ a.1 ≠ k := by
  simp [erase]

/-- Two entries with one key are the same entry. -/
theorem entry_unique {m : OrdMap κ β} {a b : κ × β} (ha : a ∈ m.entries)
    (hb : b ∈ m.entries) (h : a.1 = b.1) : a = b := by
  by_contra hne
  have hd : m.entries.Pairwise fun a b => a.1 ≠ b.1 := m.sorted.imp fun h => h.ne
  have : Std.Symm fun a b : κ × β => a.1 ≠ b.1 := ⟨fun _ _ => Ne.symm⟩
  exact hd.forall ha hb hne h

/-- The keys are pairwise distinct. -/
theorem keys_nodup (m : OrdMap κ β) : (m.entries.map Prod.fst).Nodup := by
  rw [List.Nodup, List.pairwise_map]
  exact m.sorted.imp fun h => h.ne

/-! ### Mapping the values -/

/-- Apply a function to every value. -/
def mapVal (f : β → γ) (m : OrdMap κ β) : OrdMap κ γ :=
  ⟨m.entries.map fun a => (a.1, f a.2), by
    rw [List.pairwise_map]
    exact m.sorted⟩

theorem mapVal_congr {f f' : β → γ} {m : OrdMap κ β}
    (h : ∀ a ∈ m.entries, f a.2 = f' a.2) : m.mapVal f = m.mapVal f' :=
  ext (List.map_congr_left fun a ha => by rw [h a ha])

theorem insertList_map (f : β → γ) (k : κ) (v : β) (l : List (κ × β)) :
    (insertList k v l).map (fun a => (a.1, f a.2))
      = insertList k (f v) (l.map fun a => (a.1, f a.2)) := by
  induction l with
  | nil => rfl
  | cons b l ih =>
    simp only [insertList, List.map_cons]
    split_ifs <;> simp [ih]

@[simp] theorem mapVal_insert (f : β → γ) (m : OrdMap κ β) (k : κ) (v : β) :
    (m.insert k v).mapVal f = (m.mapVal f).insert k (f v) :=
  ext (insertList_map f k v m.entries)

@[simp] theorem mapVal_erase (f : β → γ) (m : OrdMap κ β) (k : κ) :
    (m.erase k).mapVal f = (m.mapVal f).erase k := by
  apply ext
  simp [mapVal, erase, List.filter_map, Function.comp_def]

@[simp] theorem mapVal_empty (f : β → γ) :
    (empty : OrdMap κ β).mapVal f = empty := rfl

end OrdMap

end Tdg
