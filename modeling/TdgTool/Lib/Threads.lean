/-
TdgTool/Lib/Threads.lean

Threads that share a memory and a set of mutexes.

The code of a thread is a program in a monad of three instructions: take a mutex,
give it back, and do one action on the memory, which returns what it has read.  A
schedule is a list of threads, and each entry makes that thread do one
instruction; a thread at a mutex that is taken cannot be scheduled (`Conf.step`).

Three facts hold for every schedule.

* If each thread takes its mutexes in the order of a rank and gives them back,
  then some thread can go on as long as one has something to do (`Tidy.progress`),
  every schedule can be finished, and none goes on for ever (`Tidy.completes`,
  `run_ends`).

* If what a thread sees of the memory is changed by itself only, then it ends as
  if the thread had been alone (`Private.seen_alone`).

* What is done under a mutex is done in one piece: an invariant of the part of the
  memory that the mutex guards, which may count who has had it, holds whenever the
  mutex is free (`Guarded.run_free`).
-/
import Mathlib.Data.Finset.Card
import Mathlib.Data.List.Basic
import Mathlib.Logic.Hydra
import Mathlib.Order.WellFounded

namespace Threads

universe u

/-- What a thread has still to do, up to a result. -/
inductive Code (σ M R : Type u) : Type (u + 1)
  | ret (r : R)
  | lock (m : M) (rest : Code σ M R)
  | unlock (m : M) (rest : Code σ M R)
  | act {A : Type u} (f : σ → A × σ) (rest : A → Code σ M R)

variable {σ M R R' A θ V : Type u} {α : Type*}

namespace Code

/-- One piece of code after another. -/
def bind : Code σ M R → (R → Code σ M R') → Code σ M R'
  | ret r, g => g r
  | lock m rest, g => lock m (rest.bind g)
  | unlock m rest, g => unlock m (rest.bind g)
  | act f rest, g => act f fun a => (rest a).bind g

instance : Monad (Code σ M) where
  pure := ret
  bind := bind

theorem bind_ret (k : Code σ M R) : k.bind ret = k := by
  induction k with
  | ret r => rfl
  | lock m rest ih => exact congrArg (lock m) ih
  | unlock m rest ih => exact congrArg (unlock m) ih
  | act f rest ih => exact congrArg (act f) (funext ih)

/-- Take a mutex. -/
def take (m : M) : Code σ M PUnit := lock m (ret ⟨⟩)

/-- Give a mutex back. -/
def release (m : M) : Code σ M PUnit := unlock m (ret ⟨⟩)

/-- Change the memory, and return something. -/
def update (f : σ → A × σ) : Code σ M A := act f ret

/-- Look at the memory. -/
def read (f : σ → A) : Code σ M A := update fun s => (f s, s)

/-- Change the memory. -/
def write (f : σ → σ) : Code σ M PUnit := update fun s => (⟨⟩, f s)

/-- The result and the memory when no other thread runs. -/
def alone : Code σ M R → σ → R × σ
  | ret r, s => (r, s)
  | lock _ rest, s => rest.alone s
  | unlock _ rest, s => rest.alone s
  | act f rest, s => (rest (f s).1).alone (f s).2

@[simp] theorem alone_pure (r : R) (s : σ) : (pure r : Code σ M R).alone s = (r, s) := rfl

@[simp] theorem alone_take (m : M) (s : σ) : 
    (take m : Code σ M PUnit).alone s = (⟨⟩, s) := rfl

@[simp] theorem alone_release (m : M) (s : σ) :
    (release m : Code σ M PUnit).alone s = (⟨⟩, s) := rfl

@[simp] theorem alone_update (f : σ → A × σ) (s : σ) :
    (update f : Code σ M A).alone s = f s := rfl

@[simp] theorem alone_read (f : σ → A) (s : σ) : 
    (read f : Code σ M A).alone s = (f s, s) := rfl

@[simp] theorem alone_write (f : σ → σ) (s : σ) :
    (write f : Code σ M PUnit).alone s = (⟨⟩, f s) := rfl

@[simp] theorem alone_bind (k : Code σ M R) (g : R → Code σ M R') (s : σ) :
    (k >>= g).alone s = (g (k.alone s).1).alone (k.alone s).2 := by
  show (k.bind g).alone s = _
  induction k generalizing s with
  | ret r => rfl
  | lock m rest ih => exact ih s
  | unlock m rest ih => exact ih s
  | act f rest ih => exact ih (f s).1 (f s).2

/-- The pieces of a list, one after the other. -/
def seq (ks : List (Code σ M PUnit)) : Code σ M PUnit :=
  ks.foldr (fun k rest => k >>= fun _ => rest) (pure ⟨⟩)

/-- The first piece is what one instruction leaves of the second. -/
inductive Continues : Code σ M R → Code σ M R → Prop
  | lock {m rest} : Continues rest (lock m rest)
  | unlock {m rest} : Continues rest (unlock m rest)
  | act {A : Type u} {f : σ → A × σ} {rest a} : Continues (rest a) (act f rest)

/-- Every piece of code comes to an end. -/
theorem continues_wf : WellFounded (Continues : Code σ M R → Code σ M R → Prop) := by
  refine ⟨fun k => ?_⟩
  induction k with
  | ret r => exact ⟨_, fun _ h => by cases h⟩
  | lock m rest ih =>
    refine ⟨_, fun _ h => ?_⟩
    cases h
    exact ih
  | unlock m rest ih =>
    refine ⟨_, fun _ h => ?_⟩
    cases h
    exact ih
  | act f rest ih =>
    refine ⟨_, fun _ h => ?_⟩
    cases h
    exact ih _

/-! ### The actions of a piece of code -/

/-- Every action of the code satisfies `P`. -/
def Each (P : ∀ A : Type u, (σ → A × σ) → Prop) : Code σ M R → Prop
  | ret _ => True
  | lock _ rest => rest.Each P
  | unlock _ rest => rest.Each P
  | act f rest => P _ f ∧ ∀ a, (rest a).Each P

section Each

variable {P : ∀ A : Type u, (σ → A × σ) → Prop} {k : Code σ M R} {g : R → Code σ M R'}

theorem Each.bind (h : k.Each P) (hg : ∀ r, (g r).Each P) : (k >>= g).Each P := by
  show (k.bind g).Each P
  induction k with
  | ret r => exact hg r
  | lock m rest ih => exact ih h
  | unlock m rest ih => exact ih h
  | act f rest ih => exact ⟨h.1, fun a => ih a (h.2 a)⟩

theorem Each.mono {P' : ∀ A : Type u, (σ → A × σ) → Prop} (h : k.Each P)
    (hP : ∀ A f, P A f → P' A f) : k.Each P' := by
  induction k with
  | ret r => trivial
  | lock m rest ih | unlock m rest ih => exact ih h
  | act f rest ih => exact ⟨hP _ f h.1, fun a => ih a (h.2 a)⟩

theorem each_seq {ks : List (Code σ M PUnit)} (h : ∀ k ∈ ks, k.Each P) : (seq ks).Each P := by
  induction ks with
  | nil => trivial
  | cons k ks ih =>
    exact (h k List.mem_cons_self).bind fun _ => ih fun k' hk' => h k' (List.mem_cons_of_mem k hk')

end Each

/-- What `see` shows of the memory decides the results, and what it shows
afterwards. -/
abbrev Within (see : σ → V) : Code σ M R → Prop :=
  Each fun _ f => ∀ s s', see s = see s' → (f s).1 = (f s').1 ∧ see (f s).2 = see (f s').2

/-- The code leaves alone what `see` shows. -/
abbrev Avoids (see : σ → V) : Code σ M R → Prop := Each fun _ f => ∀ s, see (f s).2 = see s

/-- The code neither sees the change `φ` of the memory nor undoes it. -/
abbrev Commutes (φ : σ → σ) : Code σ M R → Prop :=
  Each fun _ f => ∀ s, f (φ s) = ((f s).1, φ (f s).2)

section Family

variable {ι : Type u} {P : ι → Prop} {k : Code σ M R}

/-- Code that depends on one part of what is seen and leaves the other parts
alone. -/
theorem Within.family (see : ι → σ → V) {i : ι} (h : k.Within (see i)) (hi : P i)
    (hne : ∀ j, j ≠ i → k.Avoids (see j)) :
    k.Within fun s (j : Subtype P) => see j s := by
  induction k with
  | ret r => trivial
  | lock m rest ih => exact ih h hne
  | unlock m rest ih => exact ih h hne
  | act f rest ih =>
    refine ⟨fun s s' hs => ?_, fun a => ih a (h.2 a) fun j hj => (hne j hj).2 a⟩
    obtain ⟨hres, hmem⟩ := h.1 s s' (congrFun hs ⟨i, hi⟩)
    refine ⟨hres, funext fun j => ?_⟩
    show see j.1 (f s).2 = see j.1 (f s').2
    by_cases hj : j.1 = i
    · rw [hj]
      exact hmem
    · rw [(hne j hj).1 s, (hne j hj).1 s']
      exact congrFun hs j

theorem Avoids.family (see : ι → σ → V) (h : ∀ j, P j → k.Avoids (see j)) :
    k.Avoids fun s (j : Subtype P) => see j s := by
  induction k with
  | ret r => trivial
  | lock m rest ih => exact ih h
  | unlock m rest ih => exact ih h
  | act f rest ih =>
    exact ⟨fun s => funext fun j => (h j j.2).1 s, fun a => ih a fun j hj => (h j hj).2 a⟩

end Family

theorem Within.alone_congr {see : σ → V} {k : Code σ M R} (h : k.Within see) {s s' : σ}
    (hs : see s = see s') : see (k.alone s).2 = see (k.alone s').2 := by
  induction k generalizing s s' with
  | ret r => exact hs
  | lock m rest ih => exact ih h hs
  | unlock m rest ih => exact ih h hs
  | act f rest ih =>
    obtain ⟨hres, hmem⟩ := h.1 s s' hs
    show see ((rest (f s).1).alone (f s).2).2 = see ((rest (f s').1).alone (f s').2).2
    rw [hres]
    exact ih _ (h.2 _) hmem

theorem Avoids.alone {see : σ → V} {k : Code σ M R} (h : k.Avoids see) (s : σ) :
    see (k.alone s).2 = see s := by
  induction k generalizing s with
  | ret r => rfl
  | lock m rest ih => exact ih h s
  | unlock m rest ih => exact ih h s
  | act f rest ih => exact (ih _ (h.2 _) (f s).2).trans (h.1 s)

theorem Commutes.alone {φ : σ → σ} {k : Code σ M R} (h : k.Commutes φ) (s : σ) :
    k.alone (φ s) = ((k.alone s).1, φ (k.alone s).2) := by
  induction k generalizing s with
  | ret r => rfl
  | lock m rest ih => exact ih h s
  | unlock m rest ih => exact ih h s
  | act f rest ih =>
    show (rest (f (φ s)).1).alone (f (φ s)).2 = _
    rw [h.1 s]
    exact ih _ (h.2 _) (f s).2

/-! ### The order of the mutexes -/

section Ranked

variable [LT α] [DecidableEq M] {rank : M → α} {held held' held'' : List M}

/-- A thread that holds the mutexes of the first list takes more in the order of
their ranks, and holds those of the second list in the end. -/
def Ranked (rank : M → α) : List M → List M → Code σ M R → Prop
  | held, held', ret _ => held = held'
  | held, held', lock m rest =>
    (∀ h ∈ held, rank h < rank m) ∧ rest.Ranked rank (m :: held) held'
  | held, held', unlock m rest => m ∈ held ∧ rest.Ranked rank (held.erase m) held'
  | held, held', act _ rest => ∀ a, (rest a).Ranked rank held held'

theorem Ranked.bind {k : Code σ M R} {g : R → Code σ M R'} (h : k.Ranked rank held held')
    (hg : ∀ r, (g r).Ranked rank held' held'') : (k >>= g).Ranked rank held held'' := by
  show (k.bind g).Ranked rank held held''
  induction k generalizing held with
  | ret r =>
    obtain rfl : held = held' := h
    exact hg r
  | lock m rest ih => exact ⟨h.1, ih h.2⟩
  | unlock m rest ih => exact ⟨h.1, ih h.2⟩
  | act f rest ih => exact fun a => ih a (h a)

theorem ranked_take {m : M} (h : ∀ m' ∈ held, rank m' < rank m) :
    (take m : Code σ M PUnit).Ranked rank held (m :: held) := ⟨h, rfl⟩

theorem ranked_release {m : M} : (release m : Code σ M PUnit).Ranked rank (m :: held) held :=
  ⟨List.mem_cons_self, List.erase_cons_head ..⟩

theorem ranked_update (f : σ → A × σ) : (update f : Code σ M A).Ranked rank held held :=
  fun _ => rfl

/-- A piece that gives back what it takes. -/
theorem Ranked.keep {k : Code σ M R} {g : R → Code σ M R'} (h : k.Ranked rank held held)
    (hg : ∀ r, (g r).Ranked rank held held'') : (k >>= g).Ranked rank held held'' := h.bind hg

theorem ranked_seq {ks : List (Code σ M PUnit)} (h : ∀ k ∈ ks, k.Ranked rank held held) :
    (seq ks).Ranked rank held held := by
  induction ks with
  | nil => rfl
  | cons k ks ih =>
    exact (h k List.mem_cons_self).bind fun _ => ih fun k' hk' => h k' (List.mem_cons_of_mem k hk')

end Ranked

/-! ### What is done under a mutex -/

/-- The code does not touch the mutex. -/
def Without (m : M) : Code σ M R → Prop
  | ret _ => True
  | lock m' rest => m' ≠ m ∧ rest.Without m
  | unlock m' rest => m' ≠ m ∧ rest.Without m
  | act _ rest => ∀ a, (rest a).Without m

theorem Without.bind {m : M} {k : Code σ M R} {g : R → Code σ M R'} (h : k.Without m)
    (hg : ∀ r, (g r).Without m) : (k >>= g).Without m := by
  show (k.bind g).Without m
  induction k with
  | ret r => exact hg r
  | lock m' rest ih | unlock m' rest ih => exact ⟨h.1, ih h.2⟩
  | act f rest ih => exact fun a => ih a (h a)

end Code

/-- What a mutex is there for.  All threads keep `stable`.  What `own` shows of a
thread is changed by that thread only.  What `shared` shows is changed by the thread
that has the mutex, and `inv` holds of it when the mutex is free; the list holds
which threads have had the mutex, with what was their own and what was shared when
they gave it back. -/
structure Guard (σ θ W V : Type u) where
  stable : σ → Prop
  own : θ → σ → W
  shared : σ → V
  inv : List (θ × W × V) → V → Prop

/-- What a thread may do to the memory wherever it is. -/
def Guard.Fair {W : Type u} (G : Guard σ θ W V) (t : θ) (s s' : σ) : Prop :=
  G.stable s → G.stable s' ∧ ∀ t', t' ≠ t → G.own t' s' = G.own t' s

namespace Code

section Sections

variable [DecidableEq M] {W : Type u} {G : Guard σ θ W V} {m : M} {k : Code σ M R}
  {g : R → Code σ M R'} {t : θ}
  {Q : R → W → ℕ → Option (List (θ × W × V) × V) → Prop}
  {Q' : R' → W → ℕ → Option (List (θ × W × V) × V) → Prop} {w : W} {n : ℕ}
  {x : Option (List (θ × W × V) × V)} {l : List (θ × W × V)} {v : V}

/-- The code of thread `t` respects the mutex.  Outside (`none`) it leaves alone
what is shared.  Under the mutex (`some`) it starts from some shared state that
satisfies the invariant, may count on nobody else changing it, and restores the
invariant before it gives the mutex back.  It starts with `w` as its own, and is to
give the mutex back `n` times; the result and what is left of this in the end satisfy
`Q`. -/
def Secure (G : Guard σ θ W V) (m : M) (t : θ)
    (Q : R → W → ℕ → Option (List (θ × W × V) × V) → Prop) :
    W → ℕ → Option (List (θ × W × V) × V) → Code σ M R → Prop
  | w, n, x, ret r => Q r w n x
  | w, n, none, lock m' rest =>
      if m' = m then ∀ l v, G.inv l v → rest.Secure G m t Q w n (some (l, v))
      else rest.Secure G m t Q w n none
  | w, n, some x, lock m' rest => m' ≠ m ∧ rest.Secure G m t Q w n (some x)
  | w, n, none, unlock m' rest => m' ≠ m ∧ rest.Secure G m t Q w n none
  | w, n, some (l, v), unlock m' rest =>
      if m' = m then G.inv (l ++ [(t, w, v)]) v ∧ 0 < n ∧ rest.Secure G m t Q w (n - 1) none
      else rest.Secure G m t Q w n (some (l, v))
  | w, n, none, act f rest =>
      ∀ s, G.stable s → G.own t s = w → G.Fair t s (f s).2 ∧
        G.shared (f s).2 = G.shared s ∧
        (rest (f s).1).Secure G m t Q (G.own t (f s).2) n none
  | w, n, some (l, v), act f rest =>
      ∀ s, G.stable s → G.own t s = w → G.shared s = v → G.Fair t s (f s).2 ∧
        (rest (f s).1).Secure G m t Q (G.own t (f s).2) n (some (l, G.shared (f s).2))

section Inversion

variable {m' : M} {rest : Code σ M R}

theorem Secure.of_lock (h : (lock m rest).Secure G m t Q w n none) (hv : G.inv l v) :
    rest.Secure G m t Q w n (some (l, v)) := by
  rw [Secure, if_pos rfl] at h
  exact h l v hv

theorem Secure.of_lock_ne (h : (lock m' rest).Secure G m t Q w n x) (hm : m' ≠ m) :
    rest.Secure G m t Q w n x := by
  rcases x with - | x
  · rwa [Secure, if_neg hm] at h
  · exact h.2

theorem Secure.of_unlock (h : (unlock m rest).Secure G m t Q w n (some (l, v))) :
    G.inv (l ++ [(t, w, v)]) v ∧ 0 < n ∧ rest.Secure G m t Q w (n - 1) none := by
  rwa [Secure, if_pos rfl] at h

theorem Secure.of_unlock_ne (h : (unlock m' rest).Secure G m t Q w n x) (hm : m' ≠ m) :
    rest.Secure G m t Q w n x := by
  rcases x with - | ⟨l, v⟩
  · exact h.2
  · rwa [Secure, if_neg hm] at h

end Inversion

/-- The code leaves alone what the mutex guards, and what threads have to
themselves. -/
abbrev Keeps (G : Guard σ θ W V) : Code σ M R → Prop :=
  Each fun _ f => ∀ s, G.stable s →
    G.stable (f s).2 ∧ (∀ t, G.own t (f s).2 = G.own t s) ∧ G.shared (f s).2 = G.shared s

/-- Code that does not touch the mutex nor what it guards can stand anywhere. -/
theorem Keeps.secure_bind (h : k.Keeps G) (hw : k.Without m)
    (hg : ∀ r, (g r).Secure G m t Q' w n x) : (k >>= g).Secure G m t Q' w n x := by
  show (k.bind g).Secure G m t Q' w n x
  induction k with
  | ret r => exact hg r
  | lock m' rest ih =>
    rcases x with - | x
    · show if m' = m then _ else _
      rw [if_neg hw.1]
      exact ih h hw.2
    · exact ⟨hw.1, ih h hw.2⟩
  | unlock m' rest ih =>
    rcases x with - | ⟨l, v⟩
    · exact ⟨hw.1, ih h hw.2⟩
    · show if m' = m then _ else _
      rw [if_neg hw.1]
      exact ih h hw.2
  | act f rest ih =>
    rcases x with - | ⟨l, v⟩
    · rintro s hs rfl
      obtain ⟨hstable, hown, hshared⟩ := h.1 s hs
      refine ⟨fun _ => ⟨hstable, fun t' _ => hown t'⟩, hshared, ?_⟩
      rw [hown t]
      exact ih _ (h.2 _) (hw _)
    · rintro s hs rfl rfl
      obtain ⟨hstable, hown, hshared⟩ := h.1 s hs
      refine ⟨fun _ => ⟨hstable, fun t' _ => hown t'⟩, ?_⟩
      rw [hown t, hshared]
      exact ih _ (h.2 _) (hw _)

theorem Secure.bind (h : k.Secure G m t Q w n x)
    (hg : ∀ r w n x, Q r w n x → (g r).Secure G m t Q' w n x) :
    (k >>= g).Secure G m t Q' w n x := by
  show (k.bind g).Secure G m t Q' w n x
  induction k generalizing w n x with
  | ret r => exact hg r w n x h
  | lock m' rest ih =>
    rcases x with - | x
    · show if m' = m then ∀ l v, G.inv l v → (rest.bind g).Secure G m t Q' w n (some (l, v))
        else (rest.bind g).Secure G m t Q' w n none
      have h' : if m' = m then ∀ l v, G.inv l v → rest.Secure G m t Q w n (some (l, v))
        else rest.Secure G m t Q w n none := h
      split_ifs at h' ⊢
      · exact fun l v hv => ih (h' l v hv)
      · exact ih h'
    · exact ⟨h.1, ih h.2⟩
  | unlock m' rest ih =>
    rcases x with - | ⟨l, v⟩
    · exact ⟨h.1, ih h.2⟩
    · show if m' = m then
          G.inv (l ++ [(t, w, v)]) v ∧ 0 < n ∧ (rest.bind g).Secure G m t Q' w (n - 1) none
        else (rest.bind g).Secure G m t Q' w n (some (l, v))
      have h' : if m' = m then
          G.inv (l ++ [(t, w, v)]) v ∧ 0 < n ∧ rest.Secure G m t Q w (n - 1) none
        else rest.Secure G m t Q w n (some (l, v)) := h
      split_ifs at h' ⊢
      · exact ⟨h'.1, h'.2.1, ih h'.2.2⟩
      · exact ih h'
  | act f rest ih =>
    rcases x with - | ⟨l, v⟩
    · exact fun s hs hw => ⟨(h s hs hw).1, (h s hs hw).2.1, ih _ (h s hs hw).2.2⟩
    · exact fun s hs hw hv => ⟨(h s hs hw hv).1, ih _ (h s hs hw hv).2⟩

/-! The rules for the instructions. -/

section Rules

variable {g : PUnit.{u + 1} → Code σ M R'} {g' : A → Code σ M R'}

theorem secure_take_bind (h : ∀ l v, G.inv l v → (g ⟨⟩).Secure G m t Q' w n (some (l, v))) :
    (take m >>= g).Secure G m t Q' w n none := by
  show if m = m then _ else _
  rw [if_pos rfl]
  exact h

theorem secure_release_bind (hinv : G.inv (l ++ [(t, w, v)]) v)
    (h : (g ⟨⟩).Secure G m t Q' w n none) :
    (release m >>= g).Secure G m t Q' w (n + 1) (some (l, v)) := by
  show if m = m then _ else _
  rw [if_pos rfl]
  exact ⟨hinv, Nat.succ_pos n, h⟩

theorem secure_update_bind {f : σ → A × σ}
    (h : ∀ s, G.stable s → G.own t s = w → G.shared s = v → G.Fair t s (f s).2 ∧
      (g' (f s).1).Secure G m t Q' (G.own t (f s).2) n (some (l, G.shared (f s).2))) :
    (update f >>= g').Secure G m t Q' w n (some (l, v)) := h

theorem secure_read_bind {f : σ → A}
    (h : ∀ s, G.stable s → G.own t s = w → (g' (f s)).Secure G m t Q' w n none) :
    (read f >>= g').Secure G m t Q' w n none := by
  rintro s hs rfl
  exact ⟨fun hs => ⟨hs, fun _ _ => rfl⟩, rfl, h s hs rfl⟩

end Rules

end Sections

end Code

/-! ### Schedules -/

/-- The memory, the holders of the mutexes and the code of the threads. -/
structure Conf (σ M θ : Type u) where
  mem : σ
  holder : M → Option θ
  code : θ → Code σ M PUnit.{u + 1}

namespace Conf

open Code

/-- All threads are about to begin. -/
def start (mem : σ) (code : θ → Code σ M PUnit.{u + 1}) : Conf σ M θ :=
  ⟨mem, fun _ => none, code⟩

/-- The thread has nothing left to do. -/
def Ended (c : Conf σ M θ) (t : θ) : Prop := c.code t = .ret ⟨⟩

variable [DecidableEq M] [DecidableEq θ]

/-- One instruction of a thread.  A mutex that is taken cannot be taken, and only
its holder gives it back. -/
def step (c : Conf σ M θ) (t : θ) : Option (Conf σ M θ) :=
  match c.code t with
  | .ret _ => none
  | .lock m rest =>
      if c.holder m = none then
        some { c with
          holder := Function.update c.holder m (some t)
          code := Function.update c.code t rest }
      else none
  | .unlock m rest =>
      if c.holder m = some t then
        some { c with
          holder := Function.update c.holder m none
          code := Function.update c.code t rest }
      else none
  | .act f rest =>
      some { c with mem := (f c.mem).2, code := Function.update c.code t (rest (f c.mem).1) }

/-- The instructions of a schedule. -/
def run (c : Conf σ M θ) (ts : List θ) : Option (Conf σ M θ) := ts.foldlM step c

/-- What an instruction can be. -/
inductive Steps (c : Conf σ M θ) (t : θ) : Conf σ M θ → Prop
  | lock {m rest} (hcode : c.code t = .lock m rest) (hfree : c.holder m = none) :
      Steps c t ⟨c.mem, Function.update c.holder m (some t), Function.update c.code t rest⟩
  | unlock {m rest} (hcode : c.code t = .unlock m rest) (hheld : c.holder m = some t) :
      Steps c t ⟨c.mem, Function.update c.holder m none, Function.update c.code t rest⟩
  | act {A : Type u} {f : σ → A × σ} {rest} (hcode : c.code t = .act f rest) :
      Steps c t ⟨(f c.mem).2, c.holder, Function.update c.code t (rest (f c.mem).1)⟩

variable {c c' c'' : Conf σ M θ} {t : θ} {ts : List θ}

theorem steps_of_step (h : c.step t = some c') : Steps c t c' := by
  rw [step] at h
  split at h
  · cases h
  · next m rest hcode =>
    split_ifs at h with hfree
    obtain rfl := Option.some.inj h
    exact .lock hcode hfree
  · next m rest hcode =>
    split_ifs at h with hheld
    obtain rfl := Option.some.inj h
    exact .unlock hcode hheld
  · next f rest hcode =>
    obtain rfl := Option.some.inj h
    exact .act hcode

theorem run_cons (h : c.step t = some c') : c.run (t :: ts) = c'.run ts := by
  rw [run, List.foldlM_cons, h]
  rfl

theorem run_append (ts ts' : List θ) :
    c.run (ts ++ ts') = (c.run ts).bind fun c' => c'.run ts' := by
  rw [run, List.foldlM_append]
  rfl

/-- **What every instruction keeps, every schedule keeps.** -/
theorem run_induction {P : Conf σ M θ → Prop}
    (hstep : ∀ {c t c'}, Steps c t c' → P c → P c')
    (h : P c) (hrun : c.run ts = some c') : P c' := by
  induction ts generalizing c with
  | nil =>
    obtain rfl := Option.some.inj hrun
    exact h
  | cons t ts ih =>
    rw [run, List.foldlM_cons] at hrun
    obtain ⟨c₁, h₁, hrun⟩ := Option.bind_eq_some_iff.mp hrun
    exact ih (hstep (steps_of_step h₁) h) hrun

omit [DecidableEq M] in
/-- What an instruction leaves to the threads. -/
theorem forall_code {P : θ → Code σ M PUnit.{u + 1} → Prop} {k : Code σ M PUnit.{u + 1}}
    (hk : P t k) (h : ∀ t', t' ≠ t → P t' (c.code t')) :
    ∀ t', P t' (Function.update c.code t k t') := by
  intro t'
  rcases eq_or_ne t' t with rfl | ht
  · rw [Function.update_self]
    exact hk
  · rw [Function.update_of_ne ht]
    exact h t' ht

/-- What no thread changes stays as it is. -/
theorem avoids_step {see : σ → V} (h : ∀ t, (c.code t).Avoids see) (hs : Steps c t c') :
    (∀ t, (c'.code t).Avoids see) ∧ see c'.mem = see c.mem := by
  have ht := h t
  cases hs with
  | lock hcode | unlock hcode =>
    rw [hcode] at ht
    exact ⟨forall_code (P := fun _ k => k.Avoids see) ht fun t' _ => h t', rfl⟩
  | act hcode =>
    rw [hcode] at ht
    exact ⟨forall_code (P := fun _ k => k.Avoids see) (ht.2 _) fun t' _ => h t', ht.1 c.mem⟩

theorem avoids_run {see : σ → V} (h : ∀ t, (c.code t).Avoids see) (hrun : c.run ts = some c') :
    see c'.mem = see c.mem :=
  (run_induction (P := fun c' => (∀ t, (c'.code t).Avoids see) ∧ see c'.mem = see c.mem)
    (fun hs hc => ⟨(avoids_step hc.1 hs).1, (avoids_step hc.1 hs).2.trans hc.2⟩)
      ⟨h, rfl⟩ hrun).2

/-! ### A thread that is not interrupted -/

section Piece

variable [Preorder α] {rank : M → α} {held held' : List M}

/-- The thread is the only one that holds mutexes, those of the list. -/
def Sole (t : θ) (held : List M) (holder : M → Option θ) : Prop :=
  held.Nodup ∧ ∀ m t', holder m = some t' ↔ t' = t ∧ m ∈ held

omit [DecidableEq M] [DecidableEq θ] in
theorem sole_nil : Sole t ([] : List M) fun _ => none := ⟨List.nodup_nil, by simp⟩

omit [DecidableEq M] [DecidableEq θ] in
theorem Sole.eq_none {holder : M → Option θ} (h : Sole t [] holder) :
    holder = fun _ => none := by
  funext m
  rcases hm : holder m with - | t'
  · rfl
  · exact absurd ((h.2 m t').mp hm).2 List.not_mem_nil

/-- **A piece of code in one go.**  A thread that is not interrupted does to the
memory what the piece does alone. -/
theorem run_piece {k : Code σ M R} {g : R → Code σ M PUnit.{u + 1}}
    (hcode : c.code t = k >>= g) (hk : k.Ranked rank held held') (hsole : Sole t held c.holder) :
    ∃ ts holder, c.run ts = some
        ⟨(k.alone c.mem).2, holder, Function.update c.code t (g (k.alone c.mem).1)⟩ ∧
      Sole t held' holder := by
  induction k generalizing c held with
  | ret r =>
    obtain rfl : held = held' := hk
    refine ⟨[], c.holder, ?_, hsole⟩
    have hsame : Function.update c.code t (g r) = c.code := by
      rw [show g r = c.code t from hcode.symm, Function.update_eq_self]
    show some c = some ⟨c.mem, c.holder, Function.update c.code t (g r)⟩
    rw [hsame]
  | lock m rest ih =>
    have hnot : m ∉ held := fun hm => lt_irrefl _ (hk.1 m hm)
    have hfree : c.holder m = none := by
      rcases hm : c.holder m with - | t'
      · rfl
      · exact absurd ((hsole.2 m t').mp hm).2 hnot
    have hstep : c.step t = some ⟨c.mem, Function.update c.holder m (some t),
        Function.update c.code t (rest.bind g)⟩ := by
      rw [step, show c.code t = .lock m (rest.bind g) from hcode]
      exact if_pos hfree
    have hsole' : Sole t (m :: held) (Function.update c.holder m (some t)) := by
      refine ⟨List.nodup_cons.mpr ⟨hnot, hsole.1⟩, fun m' t' => ?_⟩
      rcases eq_or_ne m' m with rfl | hm
      · simp [eq_comm]
      · simp [hm, hsole.2]
    obtain ⟨ts, holder, hrun, hend⟩ := ih (c := ⟨c.mem, Function.update c.holder m (some t),
      Function.update c.code t (rest.bind g)⟩) (Function.update_self ..) hk.2 hsole'
    refine ⟨t :: ts, holder, ?_, hend⟩
    rw [run_cons hstep, hrun, Function.update_idem]
    rfl
  | unlock m rest ih =>
    have hheld : c.holder m = some t := (hsole.2 m t).mpr ⟨rfl, hk.1⟩
    have hstep : c.step t = some ⟨c.mem, Function.update c.holder m none,
        Function.update c.code t (rest.bind g)⟩ := by
      rw [step, show c.code t = .unlock m (rest.bind g) from hcode]
      exact if_pos hheld
    have hsole' : Sole t (held.erase m) (Function.update c.holder m none) := by
      refine ⟨hsole.1.erase m, fun m' t' => ?_⟩
      rcases eq_or_ne m' m with rfl | hm
      · simp [hsole.1.mem_erase_iff]
      · simp [hm, hsole.2, hsole.1.mem_erase_iff]
    obtain ⟨ts, holder, hrun, hend⟩ := ih (c := ⟨c.mem, Function.update c.holder m none,
      Function.update c.code t (rest.bind g)⟩) (Function.update_self ..) hk.2 hsole'
    refine ⟨t :: ts, holder, ?_, hend⟩
    rw [run_cons hstep, hrun, Function.update_idem]
    rfl
  | act f rest ih =>
    have hstep : c.step t = some ⟨(f c.mem).2, c.holder,
        Function.update c.code t ((rest (f c.mem).1).bind g)⟩ := by
      rw [step, show c.code t = .act f (fun a => (rest a).bind g) from hcode]
    obtain ⟨ts, holder, hrun, hend⟩ := ih (f c.mem).1 (c := ⟨(f c.mem).2, c.holder,
      Function.update c.code t ((rest (f c.mem).1).bind g)⟩) (Function.update_self ..)
        (hk _) hsole
    refine ⟨t :: ts, holder, ?_, hend⟩
    rw [run_cons hstep, hrun, Function.update_idem]
    rfl

end Piece

/-! ### No schedule gets stuck -/

section Deadlock

variable [Preorder α] {rank : M → α} {held : θ → List M}

/-- Each mutex is held by the thread that has it on its list, and each thread goes
on in the order of the ranks. -/
structure Tidy (rank : M → α) (held : θ → List M) (c : Conf σ M θ) : Prop where
  nodup : ∀ t, (held t).Nodup
  holder : ∀ m t, c.holder m = some t ↔ m ∈ held t
  ranked : ∀ t, (c.code t).Ranked rank (held t) []

omit [DecidableEq θ] in
theorem tidy_start {mem : σ} {code : θ → Code σ M PUnit.{u + 1}}
    (h : ∀ t, (code t).Ranked rank [] []) : Tidy rank (fun _ => []) (start mem code) where
  nodup := fun _ => List.nodup_nil
  holder := fun m t => by simp [start]
  ranked := h

theorem Tidy.step (h : Tidy rank held c) (hs : Steps c t c') : ∃ held', Tidy rank held' c' := by
  have hr := h.ranked t
  cases hs with
  | @lock m rest hcode hfree =>
    rw [hcode] at hr
    have hnew : ∀ t', m ∉ held t' := fun t' hm => by
      rw [(h.holder m t').mpr hm] at hfree
      cases hfree
    refine ⟨Function.update held t (m :: held t), fun t' => ?_, fun m' t' => ?_, fun t' => ?_⟩
    · rcases eq_or_ne t' t with rfl | ht
      · rw [Function.update_self]
        exact List.nodup_cons.mpr ⟨hnew t', h.nodup t'⟩
      · rw [Function.update_of_ne ht]
        exact h.nodup t'
    · show Function.update c.holder m (some t) m' = some t' ↔ _
      rcases eq_or_ne m' m with rfl | hm <;> rcases eq_or_ne t' t with rfl | ht
      · simp
      · simp [ht, ht.symm, hnew t']
      · simp [hm, h.holder]
      · simp [hm, ht, h.holder]
    · refine forall_code
        (P := fun t' k => k.Ranked rank (Function.update held t (m :: held t) t') [])
        ?_ (fun t' ht => ?_) t'
      · rw [Function.update_self]
        exact hr.2
      · rw [Function.update_of_ne ht]
        exact h.ranked t'
  | @unlock m rest hcode hheld =>
    rw [hcode] at hr
    have hnd := h.nodup t
    -- no other thread has the mutex on its list
    have hother : ∀ t', t' ≠ t → m ∉ held t' := fun t' ht hm => by
      have hm' := (h.holder m t').mpr hm
      exact ht (Option.some.inj (hm'.symm.trans hheld))
    refine ⟨Function.update held t ((held t).erase m), fun t' => ?_, fun m' t' => ?_,
      fun t' => ?_⟩
    · rcases eq_or_ne t' t with rfl | ht
      · rw [Function.update_self]
        exact hnd.erase m
      · rw [Function.update_of_ne ht]
        exact h.nodup t'
    · show Function.update c.holder m none m' = some t' ↔ _
      rcases eq_or_ne m' m with rfl | hm <;> rcases eq_or_ne t' t with rfl | ht
      · simp [hnd.mem_erase_iff]
      · simp [ht, hother t' ht]
      · simp [hm, hnd.mem_erase_iff, h.holder]
      · simp [hm, ht, h.holder]
    · refine forall_code
        (P := fun t' k => k.Ranked rank (Function.update held t ((held t).erase m) t') [])
        ?_ (fun t' ht => ?_) t'
      · rw [Function.update_self]
        exact hr.2
      · rw [Function.update_of_ne ht]
        exact h.ranked t'
  | @act _ f rest hcode =>
    rw [hcode] at hr
    exact ⟨held, h.nodup, h.holder, forall_code (hr _) fun t' _ => h.ranked t'⟩

theorem tidy_run {mem : σ} {code : θ → Code σ M PUnit.{u + 1}}
    (h : ∀ t, (code t).Ranked rank [] []) (hrun : (start mem code).run ts = some c) :
    ∃ held, Tidy rank held c :=
  run_induction (P := fun c => ∃ held, Tidy rank held c) (fun hs ⟨_, hc⟩ => hc.step hs)
    ⟨_, tidy_start h⟩ hrun

/-- A thread that cannot go on has ended or waits for a mutex that is taken. -/
theorem Tidy.stuck (h : Tidy rank held c) (hs : c.step t = none) :
    c.Ended t ∧ held t = [] ∨ ∃ m rest t', c.code t = .lock m rest ∧
      c.holder m = some t' := by
  have hr := h.ranked t
  rw [Conf.step] at hs
  split at hs
  · next hcode =>
    rw [hcode] at hr
    exact .inl ⟨hcode, hr⟩
  · next m rest hcode =>
    split_ifs at hs with hfree
    obtain ⟨t', ht'⟩ := Option.ne_none_iff_exists'.mp hfree
    exact .inr ⟨m, rest, t', hcode, ht'⟩
  · next m rest hcode =>
    rw [hcode] at hr
    rw [if_pos ((h.holder m t).mpr hr.1)] at hs
    cases hs
  · cases hs

/-- **Somebody can go on.**  The holder of a mutex waits for one of a higher rank
only, so the waiting has an end. -/
theorem Tidy.progress [WellFoundedGT α] (h : Tidy rank held c) (hwork : ¬∀ t, c.Ended t) :
    ∃ t, (c.step t).isSome := by
  by_contra hnone
  have hstuck : ∀ t, c.step t = none := fun t => by
    rcases hst : c.step t with - | c'
    · rfl
    · exact absurd ⟨t, by rw [hst]; rfl⟩ hnone
  -- no mutex is held, from the highest rank downwards
  have hfree : ∀ a m t, rank m = a → c.holder m ≠ some t := by
    intro a
    induction a using WellFoundedGT.induction with
    | _ a ih =>
      rintro m t rfl hm
      have hmem := (h.holder m t).mp hm
      rcases h.stuck (hstuck t) with ⟨-, hnil⟩ | ⟨m', rest, t', hcode, hm'⟩
      · rw [hnil] at hmem
        cases hmem
      · have hr := h.ranked t
        rw [hcode] at hr
        exact ih _ (hr.1 m hmem) m' t' rfl hm'
  refine hwork fun t => ?_
  rcases h.stuck (hstuck t) with ⟨hdone, -⟩ | ⟨m, rest, t', -, hm⟩
  · exact hdone
  · exact absurd hm (hfree _ m t' rfl)

/-- One thread of a finite set has one instruction less to do. -/
theorem Steps.cutExpand {S : Finset θ} (hs : Steps c t c') (hS : ∀ t, t ∉ S → c.Ended t) :
    Relation.CutExpand Continues (S.val.map c'.code) (S.val.map c.code) ∧
      ∀ t, t ∉ S → c'.Ended t := by
  have hstep : ∃ k, Continues k (c.code t) ∧ c'.code = Function.update c.code t k := by
    cases hs with
    | lock hcode => exact ⟨_, hcode ▸ .lock, rfl⟩
    | unlock hcode => exact ⟨_, hcode ▸ .unlock, rfl⟩
    | act hcode => exact ⟨_, hcode ▸ .act, rfl⟩
  obtain ⟨k, hk, hcode⟩ := hstep
  have hin : t ∈ S := by
    by_contra hout
    rw [show c.code t = .ret ⟨⟩ from hS t hout] at hk
    cases hk
  have hother : ∀ t', t' ≠ t → c'.code t' = c.code t' := by
    intro t' ht'
    rw [hcode, Function.update_of_ne ht']
  refine ⟨?_, fun t' ht' => (hother t' fun he => ht' (he ▸ hin)).trans (hS t' ht')⟩
  have hsplit : ∀ code : θ → Code σ M PUnit.{u + 1},
      S.val.map code = {code t} + (S.erase t).val.map code := by
    intro code
    rw [← Multiset.cons_erase (show t ∈ S.val from hin), Multiset.map_cons,
      Multiset.singleton_add]
    rfl
  have hrest : (S.erase t).val.map c'.code = (S.erase t).val.map c.code :=
    Multiset.map_congr rfl fun t' ht' => hother t' (Finset.ne_of_mem_erase ht')
  rw [hsplit c'.code, hsplit c.code, hrest, hcode, Function.update_self]
  exact Relation.cutExpand_single_add hk _

/-- **No schedule goes on for ever.** -/
theorem run_ends {S : Finset θ} (hS : ∀ t, t ∉ S → c.Ended t) (next : ℕ → θ) :
    ∃ n, c.run ((List.range n).map next) = none := by
  obtain ⟨s, hs⟩ : ∃ s, s = S.val.map c.code := ⟨_, rfl⟩
  induction s using (continues_wf (σ := σ) (M := M) (R := PUnit.{u + 1})).cutExpand.induction
    generalizing c next with
  | _ s ih =>
    rcases h₁ : c.step (next 0) with - | c₁
    · refine ⟨1, ?_⟩
      show (c.step (next 0)).bind _ = none
      rw [h₁]
      rfl
    · obtain ⟨hless, hS₁⟩ := (steps_of_step h₁).cutExpand hS
      obtain ⟨n, hn⟩ := ih _ (hs ▸ hless) hS₁ (fun i => next (i + 1)) rfl
      refine ⟨n + 1, ?_⟩
      rw [List.range_succ_eq_map, List.map_cons, List.map_map, run_cons h₁]
      exact hn

/-- **Every schedule can be finished.** -/
theorem Tidy.completes [WellFoundedGT α] {S : Finset θ} (h : Tidy rank held c)
    (hS : ∀ t, t ∉ S → c.Ended t) : ∃ ts c', c.run ts = some c' ∧ ∀ t, c'.Ended t := by
  obtain ⟨s, hs⟩ : ∃ s, s = S.val.map c.code := ⟨_, rfl⟩
  induction s using (continues_wf (σ := σ) (M := M) (R := PUnit.{u + 1})).cutExpand.induction
    generalizing c held with
  | _ s ih =>
    by_cases hend : ∀ t, c.Ended t
    · exact ⟨[], c, rfl, hend⟩
    · obtain ⟨t, ht⟩ := h.progress hend
      obtain ⟨c₁, h₁⟩ := Option.isSome_iff_exists.mp ht
      obtain ⟨held₁, htidy⟩ := h.step (steps_of_step h₁)
      obtain ⟨hless, hS₁⟩ := (steps_of_step h₁).cutExpand hS
      obtain ⟨ts, c', hrun, hend'⟩ := ih _ (hs ▸ hless) htidy hS₁ rfl
      exact ⟨t :: ts, c', (run_cons h₁).trans hrun, hend'⟩

end Deadlock

/-! ### What a thread has to itself -/

section Alone

variable {see : σ → V}

/-- Thread `t` is the only one that changes what it sees. -/
structure Private (see : σ → V) (t : θ) (c : Conf σ M θ) : Prop where
  within : (c.code t).Within see
  avoids : ∀ t', t' ≠ t → (c.code t').Avoids see

/-- What the thread would leave to be seen if it went on alone. -/
def outlook (see : σ → V) (c : Conf σ M θ) (t : θ) : V := see ((c.code t).alone c.mem).2

theorem Private.step {t₀ : θ} (h : Private see t c) (hs : Steps c t₀ c') :
    Private see t c' ∧ c'.outlook see t = c.outlook see t := by
  have hw := h.within
  rcases eq_or_ne t t₀ with rfl | hne
  · -- its own instruction is the first one of the code it would run alone
    have hown : ∀ {mem holder k}, k.Within see → k.alone mem = (c.code t).alone c.mem →
        Private see t ⟨mem, holder, Function.update c.code t k⟩ ∧
          outlook see ⟨mem, holder, Function.update c.code t k⟩ t = c.outlook see t := by
      intro mem holder k hk hsame
      refine ⟨⟨?_, fun t' ht' => ?_⟩, ?_⟩
      · show (Function.update c.code t k t).Within see
        rw [Function.update_self]
        exact hk
      · show (Function.update c.code t k t').Avoids see
        rw [Function.update_of_ne ht']
        exact h.avoids t' ht'
      · show see ((Function.update c.code t k t).alone mem).2 = see ((c.code t).alone c.mem).2
        rw [Function.update_self, hsame]
    cases hs with
    | lock hcode | unlock hcode =>
      rw [hcode] at hw
      exact hown hw (by rw [hcode]; rfl)
    | act hcode =>
      rw [hcode] at hw
      exact hown (hw.2 _) (by rw [hcode]; rfl)
  · -- the instruction of another thread changes nothing that is seen
    have ha := h.avoids t₀ hne.symm
    have hother : ∀ {mem holder k}, k.Avoids see → see mem = see c.mem →
        Private see t ⟨mem, holder, Function.update c.code t₀ k⟩ ∧
          outlook see ⟨mem, holder, Function.update c.code t₀ k⟩ t = c.outlook see t := by
      intro mem holder k hk hmem
      refine ⟨⟨?_, fun t' ht' => ?_⟩, ?_⟩
      · show (Function.update c.code t₀ k t).Within see
        rw [Function.update_of_ne hne]
        exact hw
      · show (Function.update c.code t₀ k t').Avoids see
        rcases eq_or_ne t' t₀ with rfl | h₀
        · rw [Function.update_self]
          exact hk
        · rw [Function.update_of_ne h₀]
          exact h.avoids t' ht'
      · show see ((Function.update c.code t₀ k t).alone mem).2 = see ((c.code t).alone c.mem).2
        rw [Function.update_of_ne hne]
        exact hw.alone_congr hmem
    cases hs with
    | lock hcode | unlock hcode =>
      rw [hcode] at ha
      exact hother ha rfl
    | act hcode =>
      rw [hcode] at ha
      exact hother (ha.2 _) (ha.1 c.mem)

/-- **A thread that has its part of the memory to itself ends as if it had been
alone.** -/
theorem Private.seen_alone (h : Private see t c) (hrun : c.run ts = some c')
    (hend : c'.Ended t) : see c'.mem = see ((c.code t).alone c.mem).2 := by
  have hlast := run_induction
    (P := fun c' => Private see t c' ∧ c'.outlook see t = c.outlook see t)
    (fun hs hc => ⟨(hc.1.step hs).1, (hc.1.step hs).2.trans hc.2⟩) ⟨h, rfl⟩ hrun
  have hout := hlast.2
  rw [outlook, show c'.code t = .ret ⟨⟩ from hend] at hout
  exact hout

end Alone

/-! ### What a mutex guards -/

section Guard

variable {W : Type u} {G : Guard σ θ W V} {m : M} {l : List (θ × W × V)} {total : θ → ℕ}

/-- The thread, if it gives the mutex back in this instruction, and what it leaves. -/
def givesBack (G : Guard σ θ W V) (m : M) (c : Conf σ M θ) (t : θ) : List (θ × W × V) :=
  match c.code t with
  | .unlock m' _ => if m' = m then [(t, G.own t c.mem, G.shared c.mem)] else []
  | _ => []

/-- The threads that have had the mutex in a schedule, in their order, and what
each of them has left. -/
def sections (G : Guard σ θ W V) (m : M) : Conf σ M θ → List θ → List (θ × W × V)
  | _, [] => []
  | c, t :: ts => c.givesBack G m t ++ ((c.step t).elim [] fun c' => sections G m c' ts)

/-- Where a thread is: under the mutex, with what is shared, or outside. -/
def place (G : Guard σ θ W V) (m : M) (l : List (θ × W × V)) (c : Conf σ M θ) (t : θ) :
    Option (List (θ × W × V) × V) :=
  if c.holder m = some t then some (l, G.shared c.mem) else none

omit [DecidableEq M] in
theorem place_mk {mem : σ} {holder : M → Option θ} {code : θ → Code σ M PUnit.{u + 1}} :
    place G m l ⟨mem, holder, code⟩ t =
      if holder m = some t then some (l, G.shared mem) else none := rfl

/-- The invariant holds, or the holder of the mutex is restoring it.  A thread is to
have the mutex `total` times. -/
structure Guarded (G : Guard σ θ W V) (m : M) (total : θ → ℕ) (l : List (θ × W × V))
    (c : Conf σ M θ) : Prop where
  stable : G.stable c.mem
  free : c.holder m = none → G.inv l (G.shared c.mem)
  code : ∀ t, ∃ n, (l.map Prod.fst).count t + n = total t ∧
    (c.code t).Secure G m t (fun _ _ n x => n = 0 ∧ x = none) (G.own t c.mem) n (c.place G m l t)

theorem givesBack_count_ne {t₁ : θ} (h : t₁ ≠ t) :
    ((c.givesBack G m t).map Prod.fst).count t₁ = 0 := by
  rw [List.count_eq_zero]
  intro hmem
  rw [givesBack] at hmem
  split at hmem
  · split_ifs at hmem
    · exact h (List.mem_singleton.mp hmem)
    · cases hmem
  · cases hmem

/-- It is enough to look at the thread that moves, if the others see no change. -/
theorem Guarded.of_mover (h : Guarded G m total l c) {mem : σ} {holder : M → Option θ}
    {k : Code σ M PUnit.{u + 1}} (hstable : G.stable mem)
    (hown : ∀ t', t' ≠ t → G.own t' mem = G.own t' c.mem)
    (hplace : ∀ t', t' ≠ t → place G m (l ++ c.givesBack G m t)
      ⟨mem, holder, Function.update c.code t k⟩ t' = c.place G m l t')
    (hfree : holder m = none → G.inv (l ++ c.givesBack G m t) (G.shared mem))
    (hmover : ∃ n, ((l ++ c.givesBack G m t).map Prod.fst).count t + n = total t ∧
      k.Secure G m t (fun _ _ n x => n = 0 ∧ x = none) (G.own t mem) n
        (place G m (l ++ c.givesBack G m t)
        ⟨mem, holder, Function.update c.code t k⟩ t)) :
    Guarded G m total (l ++ c.givesBack G m t) ⟨mem, holder, Function.update c.code t k⟩ := by
  refine ⟨hstable, hfree, fun t' => ?_⟩
  rcases eq_or_ne t' t with rfl | hne
  · obtain ⟨n, hn, hk⟩ := hmover
    refine ⟨n, hn, ?_⟩
    show (Function.update c.code t' k t').Secure G m t' _ (G.own t' mem) n _
    rw [Function.update_self]
    exact hk
  · obtain ⟨n, hn, hsec⟩ := h.code t'
    refine ⟨n, ?_, ?_⟩
    · rw [List.map_append, List.count_append, givesBack_count_ne hne, Nat.add_zero]
      exact hn
    · show (Function.update c.code t k t').Secure G m t' _ (G.own t' mem) n _
      rw [Function.update_of_ne hne, hown t' hne, hplace t' hne]
      exact hsec

theorem Guarded.step (h : Guarded G m total l c) (hs : Steps c t c') :
    Guarded G m total (l ++ c.givesBack G m t) c' := by
  obtain ⟨n, hn, hsec⟩ := h.code t
  cases hs with
  | @lock m' rest hcode hfree =>
    have hback : c.givesBack G m t = [] := by rw [givesBack, hcode]
    rw [hcode] at hsec
    rcases eq_or_ne m' m with rfl | hm
    · -- the thread enters its section
      have hout : c.place G m' l t = none := if_neg (by rw [hfree]; simp)
      rw [hout] at hsec
      refine h.of_mover h.stable (fun _ _ => rfl) (fun t' ht' => ?_)
        (fun hnone => ?_) ⟨n, ?_, ?_⟩
      · rw [place_mk, place, hfree, Function.update_self, if_neg (by simpa using ht'.symm),
          if_neg (by simp)]
      · exact absurd (hnone : Function.update c.holder m' (some t) m' = none) (by simp)
      · rwa [hback, List.append_nil]
      · rw [place_mk, if_pos (Function.update_self ..), hback, List.append_nil]
        exact hsec.of_lock (h.free hfree)
    · have hholder : Function.update c.holder m' (some t) m = c.holder m :=
        Function.update_of_ne hm.symm ..
      refine h.of_mover h.stable (fun _ _ => rfl) (fun t' _ => ?_) (fun hnone => ?_) ⟨n, ?_, ?_⟩
      · rw [place_mk, hholder, hback, List.append_nil]
        rfl
      · rw [hback, List.append_nil]
        exact h.free (hholder.symm.trans hnone)
      · rwa [hback, List.append_nil]
      · rw [place_mk, hholder, hback, List.append_nil]
        exact hsec.of_lock_ne hm
  | @unlock m' rest hcode hheld =>
    rw [hcode] at hsec
    rcases eq_or_ne m' m with rfl | hm
    · -- the thread leaves its section
      have hback : c.givesBack G m' t = [(t, G.own t c.mem, G.shared c.mem)] := by
        rw [givesBack, hcode]
        exact if_pos rfl
      rw [place, if_pos hheld] at hsec
      obtain ⟨hinv, hpos, hrest⟩ := hsec.of_unlock
      refine h.of_mover h.stable (fun _ _ => rfl) (fun t' ht' => ?_)
        (fun _ => ?_) ⟨n - 1, ?_, ?_⟩
      · rw [place_mk, place, hheld, if_neg (by simp), if_neg (by simpa using ht'.symm)]
      · rw [hback]
        exact hinv
      · rw [hback, List.map_append, List.count_append, List.map_cons, List.map_nil,
          List.count_singleton_self]
        omega
      · rw [place_mk, if_neg (by simp)]
        exact hrest
    · have hback : c.givesBack G m t = [] := by
        rw [givesBack, hcode]
        exact if_neg hm
      have hholder : Function.update c.holder m' none m = c.holder m :=
        Function.update_of_ne hm.symm ..
      refine h.of_mover h.stable (fun _ _ => rfl) (fun t' _ => ?_) (fun hnone => ?_) ⟨n, ?_, ?_⟩
      · rw [place_mk, hholder, hback, List.append_nil]
        rfl
      · rw [hback, List.append_nil]
        exact h.free (hholder.symm.trans hnone)
      · rwa [hback, List.append_nil]
      · rw [place_mk, hholder, hback, List.append_nil]
        exact hsec.of_unlock_ne hm
  | @act _ f rest hcode =>
    have hback : c.givesBack G m t = [] := by rw [givesBack, hcode]
    rw [hcode] at hsec
    by_cases hheld : c.holder m = some t
    · -- the holder is at work, and the others are outside
      rw [place, if_pos hheld] at hsec
      obtain ⟨hfair, hrest⟩ := hsec c.mem h.stable rfl rfl
      obtain ⟨hstable, hown⟩ := hfair h.stable
      refine h.of_mover hstable hown (fun t' ht' => ?_) (fun hnone => ?_) ⟨n, ?_, ?_⟩
      · have hnot : c.holder m ≠ some t' := by
          rw [hheld]
          simpa using ht'.symm
        rw [place_mk, place, if_neg hnot, if_neg hnot]
      · exact absurd (hheld.symm.trans hnone) (by simp)
      · rwa [hback, List.append_nil]
      · rw [place_mk, if_pos hheld, hback, List.append_nil]
        exact hrest
    · rw [place, if_neg hheld] at hsec
      obtain ⟨hfair, hshared, hrest⟩ := hsec c.mem h.stable rfl
      obtain ⟨hstable, hown⟩ := hfair h.stable
      refine h.of_mover hstable hown (fun t' _ => ?_) (fun hnone => ?_) ⟨n, ?_, ?_⟩
      · rw [place_mk, place, hshared, hback, List.append_nil]
      · rw [hshared, hback, List.append_nil]
        exact h.free hnone
      · rwa [hback, List.append_nil]
      · rw [place_mk, if_neg hheld]
        exact hrest

theorem Guarded.run (h : Guarded G m total l c) (hrun : c.run ts = some c') :
    Guarded G m total (l ++ sections G m c ts) c' := by
  induction ts generalizing c l with
  | nil =>
    obtain rfl := Option.some.inj hrun
    rw [sections, List.append_nil]
    exact h
  | cons t ts ih =>
    rw [Conf.run, List.foldlM_cons] at hrun
    obtain ⟨c₁, h₁, hrun⟩ := Option.bind_eq_some_iff.mp hrun
    rw [sections, h₁, Option.elim_some, ← List.append_assoc]
    exact ih (h.step (steps_of_step h₁)) hrun

theorem guarded_start {mem : σ} {code : θ → Code σ M PUnit.{u + 1}} (hmem : G.stable mem)
    (h : G.inv [] (G.shared mem))
    (hcode : ∀ t, (code t).Secure G m t (fun _ _ n x => n = 0 ∧ x = none) (G.own t mem)
      (total t) none) :
    Guarded G m total [] (start mem code) :=
  ⟨hmem, fun _ => h, fun t => ⟨total t, Nat.zero_add _, hcode t⟩⟩

/-- **Sections are serial.**  Whenever the mutex is free, the invariant holds of
the threads that have had it. -/
theorem Guarded.run_free (h : Guarded G m total [] c) (hrun : c.run ts = some c')
    (hfree : c'.holder m = none) : G.inv (sections G m c ts) (G.shared c'.mem) :=
  (h.run hrun).free hfree

/-- A thread that has ended has had the mutex as often as it was to. -/
theorem Guarded.run_count (h : Guarded G m total [] c) (hrun : c.run ts = some c')
    (hend : c'.Ended t) : ((sections G m c ts).map Prod.fst).count t = total t := by
  obtain ⟨n, hn, hsec⟩ := (h.run hrun).code t
  rw [show c'.code t = .ret ⟨⟩ from hend] at hsec
  obtain ⟨rfl, -⟩ := hsec
  rwa [List.nil_append] at hn

end Guard

end Conf

end Threads
