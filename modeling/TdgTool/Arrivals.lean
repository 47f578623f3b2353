/-
TdgTool/Arrivals.lean

The barriers of a team, whatever the threads do at the same time.

`cb_sync_region` counts the arrivals at the barriers of a region in `_barrier_cnt`,
modulo the requested team size: the first thread of a phase makes a barrier node,
the others take the node that `_curr_barrier_node` holds.  `_barrier_mutex` makes
this one piece (`Guarded.run_free`), whatever other callbacks the threads run and
however the instructions are interleaved.  So no arrival is lost, and the threads
of a phase share one node (`barrier_phases`).

What a thread has to itself is the record of its own implicit task.  It may join
and leave the team while others are at a barrier already.
-/
import TdgTool.Deadlock

namespace Tdg

namespace Locked

open Threads Threads.Code

variable {env : Env} {s : Tool} {n u v : NodeRef} {th : ThreadId} {type : NodeType} {genId : Bool}
  {parentNode : Option NodeRef} {task parent : TaskId} {r r' : RegionId} {q : ℕ}
  {num : ThreadId → ℕ}

/-! ### Phases -/

/-- The node that a region holds for the current phase. -/
def phaseNode (v : Option (ℕ × Option NodeRef)) : Option NodeRef := v.bind Prod.snd

/-- The arrivals so far, each with the node that the task of the thread records and
with the counter and the node of the region.  The counter goes round, and the threads
of a phase share one node. -/
structure Phases (q : ℕ)
    (l : List (ThreadId × Option (Option NodeRef) × Option (ℕ × Option NodeRef)))
    (v : Option (ℕ × Option NodeRef)) : Prop where
  count : v.map Prod.fst = some (l.length % q)
  recorded : ∀ x ∈ l, ∃ b, phaseNode x.2.2 = some b ∧ x.2.1 = some (some b)
  shared : ∀ i j x y, l[i]? = some x → l[j]? = some y → i / q = j / q →
    phaseNode x.2.2 = phaseNode y.2.2
  last : ∀ x, l.getLast? = some x → phaseNode x.2.2 = phaseNode v

theorem phases_nil {b : Option NodeRef} : Phases q [] (some (0, b)) where
  count := congrArg some (Nat.zero_mod q).symm
  recorded := by simp
  shared := by simp
  last := by simp

/-- One more arrival: it opens a phase, or takes the node of the phase it is in. -/
theorem Phases.snoc {l v} (h : Phases q l v) {b : NodeRef}
    (hb : l.length % q ≠ 0 → phaseNode v = some b) :
    Phases q (l ++ [(th, some (some b), some ((l.length + 1) % q, some b))])
      (some ((l.length + 1) % q, some b)) where
  count := by simp
  recorded := by
    intro x hx
    rcases List.mem_append.mp hx with hx | hx
    · exact h.recorded x hx
    · obtain rfl := List.mem_singleton.mp hx
      exact ⟨b, rfl, rfl⟩
  shared := by
    -- an earlier arrival of the same phase has the node that the region holds
    have hnew : ∀ j y, l[j]? = some y → j / q = l.length / q → phaseNode y.2.2 = some b := by
      intro j y hy hphase
      have hj : j < l.length := (List.getElem?_eq_some_iff.mp hy).1
      obtain ⟨z, hlast⟩ : ∃ z, l[l.length - 1]? = some z :=
        ⟨_, List.getElem?_eq_getElem (show l.length - 1 < l.length by omega)⟩
      have hz : l.getLast? = some z := by rwa [List.getLast?_eq_getElem?]
      have hle : j / q ≤ (l.length - 1) / q := Nat.div_le_div_right (by omega)
      have hge : (l.length - 1) / q ≤ l.length / q := Nat.div_le_div_right (Nat.sub_le _ 1)
      have hmid : l.length % q ≠ 0 := by
        intro hzero
        have hdvd : q * (l.length / q) = l.length :=
          Nat.mul_div_cancel' (Nat.dvd_of_mod_eq_zero hzero)
        have hlow : q * (j / q) ≤ j := Nat.mul_div_le j q
        rw [hphase, hdvd] at hlow
        omega
      rw [h.shared j _ y z hy hlast (by omega), h.last z hz, hb hmid]
    intro i j x y hx hy hij
    rw [List.getElem?_append] at hx hy
    split_ifs at hx hy with hi hj hj
    · exact h.shared i j x y hx hy hij
    · obtain ⟨hj', rfl⟩ : j - l.length = 0 ∧ _ = y := by simpa [List.getElem?_cons] using hy
      rw [hnew i x hx (by rw [hij]; congr 1; omega)]
      rfl
    · obtain ⟨hi', rfl⟩ : i - l.length = 0 ∧ _ = x := by simpa [List.getElem?_cons] using hx
      rw [hnew j y hy (by rw [← hij]; congr 1; omega)]
      rfl
    · obtain ⟨-, rfl⟩ : i - l.length = 0 ∧ _ = x := by simpa [List.getElem?_cons] using hx
      obtain ⟨-, rfl⟩ : j - l.length = 0 ∧ _ = y := by simpa [List.getElem?_cons] using hy
      rfl
  last := by
    intro x hx
    rw [List.getLast?_concat] at hx
    obtain rfl := Option.some.inj hx
    rfl

/-! ### What the mutex of the barriers guards -/

/-- The implicit tasks of a region. -/
def ofRegion (r : RegionId) : TaskId → Bool
  | .implicit r' _ => r' = r
  | _ => false

/-- `_barrier_mutex` of region `r`, which task `parent` has encountered, and of which a
team of `q` threads was requested.  Thread `th` executes the implicit task with the
number `num th`, if it is in the team. -/
def barrierGuard (q : ℕ) (r : RegionId) (parent : TaskId) (num : ThreadId → ℕ) :
    Guard Tool ThreadId (Option (Option NodeRef)) (Option (ℕ × Option NodeRef)) where
  stable s := (s.parData r).map (fun p => (p.teamSize, p.parentTaskData)) = some (q, parent) ∧
    ∃ td, s.taskData parent = some td
  own th s := (s.taskData (.implicit r (num th))).map fun td => td.currBarrierNode
  shared s := (s.parData r).map fun p => (p.barrierCnt, p.currBarrierNode)
  inv := Phases q

/-- The code touches neither the mutex of the barriers nor what it guards. -/
def Quiet {A : Type} (q : ℕ) (r : RegionId) (parent : TaskId) (num : ThreadId → ℕ)
    (k : Prog A) : Prop :=
  k.Keeps (barrierGuard q r parent num) ∧ k.Without (.barrier r)

section Quiet

variable {A B : Type} {k : Prog A} {g : A → Prog B}

/-- Quiet instructions one after the other. -/
theorem Quiet.bind (h : Quiet q r parent num k) (hg : ∀ a, Quiet q r parent num (g a)) :
    Quiet q r parent num (k >>= g) :=
  ⟨Each.bind h.1 fun a => (hg a).1, Without.bind h.2 fun a => (hg a).2⟩

theorem quiet_pure (a : A) : Quiet q r parent num (pure a : Prog A) := ⟨trivial, trivial⟩

/-- What reads or changes the nodes only. -/
theorem quiet_of_records (h : k.Avoids records) (hw : k.Without (.barrier r)) :
    Quiet q r parent num k := by
  refine ⟨h.mono fun A f hf s hs => ?_, hw⟩
  obtain ⟨htask, hpar, -⟩ : (f s).2.taskData = s.taskData ∧ (f s).2.parData = s.parData ∧
      (f s).2.threadData = s.threadData := by simpa [records] using hf s
  refine ⟨?_, fun t => ?_, ?_⟩
  · show ((f s).2.parData r).map _ = _ ∧ ∃ td, (f s).2.taskData parent = some td
    rw [hpar, htask]
    exact hs
  · show ((f s).2.taskData _).map _ = (s.taskData _).map _
    rw [htask]
  · show ((f s).2.parData r).map _ = (s.parData r).map _
    rw [hpar]

/-- An instruction that leaves the records alone. -/
theorem quiet_update {f : Tool → A × Tool} (h : ∀ s, records (f s).2 = records s) :
    Quiet q r parent num (update f) :=
  quiet_of_records ⟨h, fun _ => trivial⟩ fun _ => trivial

theorem quiet_elim {o : Option A} {rest : A → Prog Unit}
    (h : ∀ a, Quiet q r parent num (rest a)) :
    Quiet q r parent num (o.elim (pure ()) rest) := by
  rcases o with - | a
  · exact quiet_pure _
  · exact h a

/-- A look at a record, and what comes behind it. -/
theorem quiet_deref {f : Tool → Option A} {rest : A → Prog Unit}
    (h : ∀ a, Quiet q r parent num (rest a)) :
    Quiet q r parent num (deref f rest) :=
  Quiet.bind (quiet_update fun _ => rfl) fun _ => quiet_elim h

end Quiet

/-! ### The functions on nodes -/

/-- `Graph::connectNodes` takes no barrier mutex. -/
theorem quiet_connectNodes : Quiet q r parent num (connectNodes u v) := by
  refine quiet_of_records avoids_connectNodes ?_
  refine Without.bind ⟨by simp, fun _ => ⟨by simp, trivial⟩⟩ fun connected => ?_
  cases connected with
  | false => exact ⟨by simp, by simp, fun _ _ => ⟨by simp, by simp, trivial⟩⟩
  | true => trivial

theorem quiet_disconnectNodes : Quiet q r parent num (disconnectNodes u v) :=
  quiet_of_records ⟨fun _ => rfl, fun _ => ⟨fun _ => rfl, fun _ => trivial⟩⟩
    ⟨by simp, fun _ => ⟨by simp, by simp, fun _ => ⟨by simp, trivial⟩⟩⟩

theorem quiet_addNode {id : ℤ} : Quiet q r parent num (addNode id n) :=
  quiet_of_records ⟨fun _ => rfl, fun _ => trivial⟩
    ⟨by simp, fun _ => ⟨by simp, trivial⟩⟩

theorem quiet_removeNode {id : ℤ} : Quiet q r parent num (removeNode id) :=
  quiet_of_records ⟨fun _ => rfl, fun _ => trivial⟩
    ⟨by simp, fun _ => ⟨by simp, trivial⟩⟩

theorem quiet_removeAndDelete : Quiet q r parent num (removeAndDelete n) :=
  quiet_deref fun _ => Quiet.bind quiet_removeNode fun _ => quiet_update fun _ => rfl

theorem quiet_addTime : Quiet q r parent num (addTime env th n) :=
  Quiet.bind (quiet_update fun _ => rfl) fun _ => quiet_update fun _ => rfl

theorem quiet_setLastTime : Quiet q r parent num (setLastTime env n) :=
  Quiet.bind (quiet_update fun _ => rfl) fun _ => quiet_update fun _ => rfl

theorem quiet_endPapiCounters : Quiet q r parent num (endPapiCounters env th n) :=
  quiet_update fun _ => rfl

theorem quiet_touch {f : Node → Node} : Quiet q r parent num (write fun s => s.touch n f) :=
  quiet_update fun _ => rfl

theorem quiet_createCleanNode : Quiet q r parent num (createCleanNode type genId) := by
  refine Quiet.bind ?_ fun _ => Quiet.bind (quiet_update fun _ => rfl) fun _ =>
    Quiet.bind quiet_addNode fun _ => quiet_pure _
  cases genId with
  | false => exact quiet_pure _
  | true => exact quiet_update fun _ => rfl

theorem quiet_createNewNode : Quiet q r parent num (createNewNode env type parentNode) :=
  Quiet.bind quiet_createCleanNode fun _ => Quiet.bind (quiet_elim fun _ => quiet_connectNodes)
    fun _ => Quiet.bind quiet_setLastTime fun _ => quiet_pure _

/-! ### Records of other regions -/

/-- What is stable says of the task data only that the parent has some. -/
theorem stable_setTaskData {td : Option (TaskData NodeRef)} (h : task = parent → td.isSome = true)
    (hs : (barrierGuard q r parent num).stable s) :
    (barrierGuard q r parent num).stable (s.setTaskData task td) := by
  refine ⟨hs.1, ?_⟩
  show ∃ td', Function.update s.taskData task td parent = some td'
  rcases eq_or_ne parent task with rfl | hne
  · rw [Function.update_self]
    exact Option.isSome_iff_exists.mp (h rfl)
  · rw [Function.update_of_ne hne]
    exact hs.2

/-- A new record of a task that is not in the team. -/
theorem quiet_setTaskData {td : Tool → Option (TaskData NodeRef)} (h : ofRegion r task = false)
    (hparent : task = parent → ∀ s, (td s).isSome = true) :
    Quiet q r parent num (write fun s => s.setTaskData task (td s)) := by
  refine ⟨⟨fun s hs => ⟨stable_setTaskData (fun he => hparent he s) hs, fun t => ?_, rfl⟩,
    fun _ => trivial⟩, fun _ => trivial⟩
  show (Function.update s.taskData task (td s) _).map _ = _
  rw [Function.update_of_ne]
  · rfl
  · rintro rfl
    simp [ofRegion] at h

theorem stable_onTaskData {f : TaskData NodeRef → TaskData NodeRef}
    (hs : (barrierGuard q r parent num).stable s) :
    (barrierGuard q r parent num).stable (s.onTaskData task f) := by
  refine stable_setTaskData ?_ hs
  rintro rfl
  obtain ⟨td, htd⟩ := hs.2
  rw [htd]
  rfl

/-- A change that leaves the barrier node in the record. -/
theorem quiet_onTaskData {f : TaskData NodeRef → TaskData NodeRef}
    (h : ∀ td, (f td).currBarrierNode = td.currBarrierNode) :
    Quiet q r parent num (write fun s => s.onTaskData task f) := by
  refine ⟨⟨fun s hs => ⟨stable_onTaskData hs, fun t => ?_, rfl⟩, fun _ => trivial⟩,
    fun _ => trivial⟩
  show (Function.update s.taskData task ((s.taskData task).map f) (.implicit r (num t))).map
    (fun td => td.currBarrierNode) = (s.taskData (.implicit r (num t))).map _
  rcases eq_or_ne (TaskId.implicit r (num t)) task with rfl | hne
  · rw [Function.update_self, Option.map_map]
    exact congrArg (fun g => Option.map g _) (funext h)
  · rw [Function.update_of_ne hne]

/-- A change of the record of a task that is not in the team. -/
theorem quiet_onTaskData_other {f : TaskData NodeRef → TaskData NodeRef}
    (h : ofRegion r task = false) : Quiet q r parent num (write fun s => s.onTaskData task f) := by
  refine ⟨⟨fun s hs => ⟨stable_onTaskData hs, fun t => ?_, rfl⟩, fun _ => trivial⟩,
    fun _ => trivial⟩
  show (Function.update s.taskData task _ _).map _ = _
  rw [Function.update_of_ne]
  · rfl
  · rintro rfl
    simp [ofRegion] at h

/-- Another region is not this one. -/
theorem quiet_setParData {p : Tool → Option (ParallelRegionData NodeRef)} (h : r' ≠ r) :
    Quiet q r parent num (write fun s => s.setParData r' (p s)) := by
  have hpar : ∀ s : Tool, (s.setParData r' (p s)).parData r = s.parData r := fun s =>
    Function.update_of_ne h.symm ..
  refine ⟨⟨fun s hs => ⟨?_, fun _ => rfl, ?_⟩, fun _ => trivial⟩, fun _ => trivial⟩
  · show ((s.setParData r' (p s)).parData r).map _ = _ ∧ _
    rw [hpar]
    exact hs
  · show ((s.setParData r' (p s)).parData r).map _ = (s.parData r).map _
    rw [hpar]

theorem quiet_setThreadData {td : Tool → Option ThreadData} :
    Quiet q r parent num (write fun s => s.setThreadData th (td s)) :=
  ⟨⟨fun _ hs => ⟨hs, fun _ => rfl, rfl⟩, fun _ => trivial⟩, fun _ => trivial⟩

theorem quiet_final : Quiet q r parent num (write fun s => { s with finalNode := some n }) :=
  quiet_update fun _ => rfl

/-! ### The callbacks that stay away from the barriers of the region -/

/-- The end of an implicit task reads the records and changes edges. -/
theorem quiet_joinSink {td : TaskData NodeRef} {threadNum : ℕ} :
    Quiet q r parent num (joinSink env th td threadNum) := by
  rw [joinSink]
  rcases td.currBarrierNode with - | b
  · exact Quiet.bind quiet_addTime fun _ => quiet_elim fun _ => quiet_connectNodes
  · refine Quiet.bind quiet_disconnectNodes fun _ => Quiet.bind quiet_removeAndDelete fun _ => ?_
    split_ifs
    · exact quiet_elim fun _ => quiet_connectNodes
    · exact quiet_pure _

theorem quiet_parallelBegin {size : ℕ} (h : r' ≠ r) :
    Quiet q r parent num (cbParallelBegin env th task r' size) :=
  quiet_deref fun _ => Quiet.bind quiet_addTime fun _ => Quiet.bind quiet_createCleanNode fun _ =>
    quiet_setParData h

theorem quiet_parallelEnd (h : r' ≠ r) : Quiet q r parent num (cbParallelEnd env r') :=
  quiet_deref fun _ => Quiet.bind (quiet_onTaskData fun _ => rfl) fun _ =>
    Quiet.bind quiet_setLastTime fun _ => Quiet.bind quiet_final fun _ => quiet_setParData h

/-- A creation that is not one of an implicit task of the region. -/
theorem quiet_taskCreate {new : TaskId} {type : TaskType} (h : ofRegion r new = false) :
    Quiet q r parent num (cbTaskCreate env task new type) := by
  cases type with
  | initial =>
    exact Quiet.bind quiet_createNewNode fun _ =>
      Quiet.bind (quiet_setTaskData h fun _ _ => rfl) fun _ => quiet_final
  | explicit =>
    exact Quiet.bind (quiet_update fun _ => rfl) fun _ => Quiet.bind quiet_createNewNode fun _ =>
      quiet_setTaskData h fun _ _ => rfl
  | implicit => exact quiet_pure _
  | target => exact quiet_pure _

theorem quiet_taskSchedule {first second : TaskId} :
    Quiet q r parent num (cbTaskSchedule env th first second) :=
  Quiet.bind (quiet_deref fun _ => quiet_addTime) fun _ => quiet_deref fun _ => quiet_setLastTime

theorem quiet_extLoopBegin {lower upper : ℤ} :
    Quiet q r parent num (cbExtLoopBegin env th task lower upper) :=
  quiet_deref fun _ => Quiet.bind quiet_addTime fun _ => Quiet.bind quiet_createNewNode fun _ =>
    Quiet.bind quiet_touch fun _ => Quiet.bind quiet_createCleanNode fun _ =>
      quiet_onTaskData fun _ => rfl

theorem quiet_extLoopEnd : Quiet q r parent num (cbExtLoopEnd env th task) := by
  refine quiet_deref fun ws => Quiet.bind ?_ fun _ => Quiet.bind (quiet_onTaskData fun _ => rfl)
    fun _ => Quiet.bind quiet_setLastTime fun _ => Quiet.bind (quiet_onTaskData fun _ => rfl)
      fun _ => quiet_setThreadData
  rw [closeLoop]
  rcases ws.lastChunkNode with - | x
  · exact Quiet.bind quiet_addTime fun _ => quiet_connectNodes
  · exact Quiet.bind quiet_endPapiCounters fun _ => quiet_addTime

theorem quiet_extChunk {lower upper : ℤ} {lastChunk : Bool} :
    Quiet q r parent num (cbExtChunk env th task lower upper lastChunk) := by
  refine quiet_deref fun ws => Quiet.bind ?_ fun _ => ?_
  · rw [closeChunk]
    rcases ws.lastChunkNode with - | x
    · exact quiet_addTime
    · cases lastChunk
      · exact Quiet.bind quiet_endPapiCounters fun _ => quiet_addTime
      · exact quiet_pure _
  · cases lastChunk
    · refine Quiet.bind quiet_createNewNode fun _ => Quiet.bind quiet_touch fun _ =>
        Quiet.bind (quiet_deref fun _ => quiet_touch) fun _ =>
          Quiet.bind (quiet_deref fun _ => quiet_touch) fun _ =>
            Quiet.bind (quiet_onTaskData fun _ => rfl) fun _ =>
              Quiet.bind quiet_connectNodes fun _ => Quiet.bind quiet_touch fun _ =>
                quiet_update fun _ => rfl
    · exact quiet_pure _

/-- The barrier of another region, for a task of that region. -/
theorem quiet_barrierBegin {size : ℕ} (hr : r' ≠ r) (h : ofRegion r task = false) :
    Quiet q r parent num (cbBarrierBegin env th r' size task) := by
  have hpar : ∀ f, Quiet q r parent num (write fun s => s.onParData r' f) :=
    fun f => quiet_setParData hr
  have hlock : Without (.barrier r) (take (.barrier r') : Prog Unit) :=
    ⟨by simpa using hr, trivial⟩
  have hunlock : Without (.barrier r) (release (.barrier r') : Prog Unit) :=
    ⟨by simpa using hr, trivial⟩
  refine quiet_deref fun currNode => Quiet.bind quiet_addTime fun _ => Quiet.bind ?_ fun a => ?_
  · refine Quiet.bind ⟨trivial, hlock⟩ fun _ => Quiet.bind ?_ fun cnt => Quiet.bind ?_ fun _ =>
      Quiet.bind (quiet_onTaskData_other h) fun _ => Quiet.bind ⟨trivial, hunlock⟩ fun _ =>
        quiet_pure _
    · refine ⟨⟨fun s hs => ?_, fun _ => trivial⟩, fun _ => trivial⟩
      exact (hpar fun p => { p with barrierCnt := p.barrierCnt + 1 }).1.1 s hs
    · rw [pickBarrier]
      split_ifs
      · exact Quiet.bind quiet_createNewNode fun _ => Quiet.bind (hpar _) fun _ => quiet_pure _
      · refine Quiet.bind (quiet_update fun _ => rfl) fun _ =>
          Quiet.bind (quiet_elim fun _ => quiet_connectNodes) fun _ =>
            Quiet.bind (quiet_update fun _ => rfl) fun _ => Quiet.bind ?_ fun _ => quiet_pure _
        rw [resetBarrier]
        split_ifs
        · exact hpar _
        · exact quiet_pure _
  · refine quiet_elim fun _ => Quiet.bind quiet_createNewNode fun _ =>
      Quiet.bind (quiet_onTaskData fun _ => rfl) fun _ => ?_
    split_ifs
    · exact quiet_connectNodes
    · exact quiet_pure _

/-! ### What the threads of the team do -/

/-- The thread arrives at a barrier of the region. -/
def arrivesAt (r : RegionId) (e : Event) : Bool :=
  match e.call with
  | .syncRegion .barrier .scopeBegin r' _ => r' = r
  | _ => false

/-- What a thread does while the region is there, where `t` is the number it has in
the team and `joined` says whether its implicit task has begun: it comes to the
barriers as that task, after its begin and before its end.  The task that has
encountered the region does not end before the region. -/
def takesPart (r : RegionId) (parent : TaskId) (t : ℕ) (joined : Bool) (e : Event) :
    Option Bool :=
  match e.call with
  | .parallelBegin _ r' _ _ _ => if r' = r then none else some joined
  | .parallelEnd r' _ => if r' = r then none else some joined
  | .implicitTask .scopeBegin r' task _ _ =>
      if task = .implicit r t then if r' = r then some true else none
      else if ofRegion r task then none else some joined
  | .implicitTask .scopeEnd _ task _ _ =>
      if task = .implicit r t then some false
      else if ofRegion r task ∨ task = parent then none else some joined
  | .taskCreate _ new _ => if ofRegion r new then none else some joined
  | .syncRegion .barrier .scopeBegin r' task =>
      if r' = r then if joined ∧ task = .implicit r t then some true else none
      else if ofRegion r task then none else some joined
  | _ => some joined

/-- The number of arrivals of a thread. -/
def arrivals (r : RegionId) (es : List Event) : ℕ := es.countP (arrivesAt r)

/-! ### The code of the threads respects the mutex -/

section Secure

variable {A B : Type} {k : Prog A} {g : A → Prog B} {w : Option (Option NodeRef)} {c : ℕ}

/-- What a thread is under the mutex: the arrivals before it, and what it finds. -/
abbrev Place := Option
    (List (ThreadId × Option (Option NodeRef) × Option (ℕ × Option NodeRef)) ×
  Option (ℕ × Option NodeRef))

variable {Q : A → Option (Option NodeRef) → ℕ → Place → Prop}
  {Q' : B → Option (Option NodeRef) → ℕ → Place → Prop} {x : Place}

/-- Quiet instructions in front change nothing about what comes behind. -/
theorem Quiet.secure_bind (h : Quiet q r parent num k)
    (hg : ∀ a, (g a).Secure (barrierGuard q r parent num) (.barrier r) th Q' w c x) :
    (k >>= g).Secure (barrierGuard q r parent num) (.barrier r) th Q' w c x :=
  Keeps.secure_bind h.1 h.2 hg

theorem Quiet.secure (h : Quiet q r parent num k) (hQ : ∀ a, Q a w c x) :
    k.Secure (barrierGuard q r parent num) (.barrier r) th Q w c x := by
  have hbind : (k >>= ret).Secure (barrierGuard q r parent num) (.barrier r) th Q w c x :=
    h.secure_bind hQ
  rwa [show k >>= ret = k from bind_ret k] at hbind

/-- A thread changes what it finds in the record of the region. -/
theorem secure_onParData_bind {f : ParallelRegionData NodeRef → ParallelRegionData NodeRef}
    {g : A → Prog B} {res : Tool → A} {l v}
    (hkeep : ∀ p, (f p).teamSize = p.teamSize ∧ (f p).parentTaskData = p.parentTaskData)
    (h : ∀ s p, s.parData r = some p → v = some (p.barrierCnt, p.currBarrierNode) →
      (g (res s)).Secure (barrierGuard q r parent num) (.barrier r) th Q' w c
        (some (l, some ((f p).barrierCnt, (f p).currBarrierNode)))) :
    (update (fun s => (res s, s.onParData r f)) >>= g).Secure (barrierGuard q r parent num)
      (.barrier r)
      th Q' w c (some (l, v)) := by
  refine secure_update_bind fun s hs hw hv => ?_
  obtain ⟨p, hp, hq⟩ := Option.map_eq_some_iff.mp hs.1
  have hpar : (s.onParData r f).parData r = some (f p) := by
    rw [Tool.onParData, hp]
    exact Function.update_self ..
  have hshared : (barrierGuard q r parent num).shared (s.onParData r f) =
      some ((f p).barrierCnt, (f p).currBarrierNode) := by
    show ((s.onParData r f).parData r).map _ = _
    rw [hpar]
    rfl
  refine ⟨fun _ => ⟨?_, fun _ _ => rfl⟩, ?_⟩
  · refine ⟨?_, hs.2⟩
    show ((s.onParData r f).parData r).map _ = _
    rw [hpar, Option.map_some, (hkeep p).1, (hkeep p).2, hq]
  · rw [hshared, show (barrierGuard q r parent num).own th (s.onParData r f) = w from hw]
    refine h s p hp ?_
    rw [← hv]
    show (s.parData r).map _ = _
    rw [hp]
    rfl

/-- A thread looks at the record of the region. -/
theorem secure_readParData_bind {f : Tool → A} {l v}
    (h : ∀ s p, s.parData r = some p → v = some (p.barrierCnt, p.currBarrierNode) →
      (g (f s)).Secure (barrierGuard q r parent num) (.barrier r) th Q' w c (some (l, v))) :
    (read f >>= g).Secure (barrierGuard q r parent num) (.barrier r) th Q' w c (some (l, v)) := by
  refine secure_update_bind fun s hs hw hv => ⟨fun _ => ⟨hs, fun _ _ => rfl⟩, ?_⟩
  rw [hw, hv]
  obtain ⟨p, hp, -⟩ := Option.map_eq_some_iff.mp hs.1
  refine h s p hp (hv.symm.trans ?_)
  show (s.parData r).map _ = _
  rw [hp]
  rfl

/-- The node of the arrival: a new one at the begin of a phase, or the one that the
region holds. -/
theorem secure_pickBarrier {l v} {cnt : ℕ} {b : Option NodeRef} (hq : 1 < q)
    (hphases : Phases q l v)
    (hcnt : cnt = l.length % q) (hb : phaseNode v = b) :
    (pickBarrier env r q n cnt).Secure (barrierGuard q r parent num) (.barrier r) th
      (fun a w' c' x => w' = w ∧ c' = c ∧ ∃ b, a = some b ∧
        (l.length % q ≠ 0 → phaseNode v = some b) ∧
        x = some (l, some ((l.length + 1) % q, some b)))
      w c (some (l, some (cnt + 1, b))) := by
  rw [pickBarrier]
  split_ifs with hzero
  · -- the first thread of a phase
    refine quiet_createNewNode.secure_bind fun b' =>
      secure_onParData_bind (fun _ => ⟨rfl, rfl⟩) ?_
    intro s p hp hv
    refine ⟨rfl, rfl, b', rfl, fun hne => absurd (hcnt ▸ hzero) hne, ?_⟩
    obtain ⟨hcount, -⟩ := Prod.mk.inj (Option.some.inj hv)
    have hone : (l.length + 1) % q = 1 := by
      rw [Nat.add_mod, ← hcnt, hzero, Nat.mod_eq_of_lt hq, Nat.zero_add, Nat.mod_eq_of_lt hq]
    rw [hone]
    show some (l, some (p.barrierCnt, some b')) = _
    rw [← hcount, hzero]
  · -- the others find the node of the last arrival
    obtain ⟨y, hy⟩ : ∃ y, l.getLast? = some y := by
      rcases l.eq_nil_or_concat with rfl | ⟨l', y, rfl⟩
      · exact absurd (hcnt.trans (Nat.zero_mod q)) hzero
      · exact ⟨y, by rw [List.concat_eq_append, List.getLast?_concat]⟩
    obtain ⟨b', hb', -⟩ := hphases.recorded y (List.mem_of_getLast? hy)
    obtain rfl : b = some b' := by rw [← hb, ← hphases.last y hy, hb']
    refine secure_readParData_bind fun s p hp hv => ?_
    have hread : ((s.parData r).bind fun p => p.currBarrierNode) = some b' := by
      rw [hp]
      exact (Prod.mk.inj (Option.some.inj hv)).2.symm
    rw [hread]
    refine Quiet.secure_bind quiet_connectNodes fun _ =>
      secure_readParData_bind fun s' p' hp' hv' => ?_
    have hread' : ((s'.parData r).elim 0 fun p => p.barrierCnt) = cnt + 1 := by
      rw [hp']
      exact (Prod.mk.inj (Option.some.inj hv')).1.symm
    rw [hread', resetBarrier]
    have hlt : l.length % q < q := Nat.mod_lt _ (by omega)
    split_ifs with hall
    · -- the last thread of a phase
      have hround : (l.length + 1) % q = 0 := by
        rw [← Nat.mod_add_mod, show l.length % q + 1 = q by omega, Nat.mod_self]
      refine secure_onParData_bind (fun _ => ⟨rfl, rfl⟩) fun s'' p'' hp'' hv'' =>
        ⟨rfl, rfl, b', rfl, fun _ => hb, ?_⟩
      rw [hround, (Prod.mk.inj (Option.some.inj hv'')).2]
    · have hround : (l.length + 1) % q = cnt + 1 := by
        rw [← Nat.mod_add_mod, ← hcnt, Nat.mod_eq_of_lt (by omega)]
      exact ⟨rfl, rfl, b', rfl, fun _ => hb, by rw [hround]⟩

/-- A thread records its barrier node. -/
theorem secure_record_bind {g : Unit → Prog B} {l v} {b : NodeRef} (hnum : Function.Injective num)
    (hw : w.isSome = true)
    (h : (g ()).Secure (barrierGuard q r parent num) (.barrier r) th Q' (some (some b)) c
      (some (l, v))) :
    ((write fun s => s.onTaskData (.implicit r (num th)) fun td =>
      { td with currBarrierNode := some b } : Prog Unit) >>= g).Secure (barrierGuard q r parent num)
      (.barrier r) th Q' w c (some (l, v)) := by
  refine secure_update_bind fun s hs hown hv =>
    ⟨fun _ => ⟨stable_onTaskData hs, fun t' ht' => ?_⟩, ?_⟩
  · show (Function.update s.taskData _ _ _).map _ = _
    rw [Function.update_of_ne]
    · rfl
    · exact fun he => ht' (hnum (TaskId.implicit.inj he).2)
  · obtain ⟨td, htd⟩ : ∃ td, s.taskData (.implicit r (num th)) = some td := by
      rw [← hown] at hw
      obtain ⟨y, hy⟩ := Option.isSome_iff_exists.mp hw
      obtain ⟨td, htd, -⟩ := Option.map_eq_some_iff.mp hy
      exact ⟨td, htd⟩
    have hnew : (barrierGuard q r parent num).own th (s.onTaskData (.implicit r (num th)) fun td =>
        { td with currBarrierNode := some b }) = some (some b) := by
      show (Function.update s.taskData _ ((s.taskData _).map _) _).map _ = _
      rw [Function.update_self, htd]
      rfl
    show (g ()).Secure (barrierGuard q r parent num) (.barrier r) th Q'
      ((barrierGuard q r parent num).own th _) c
      (some (l, (barrierGuard q r parent num).shared s))
    rw [hnew, hv]
    exact h

/-- The section of `cb_sync_region` keeps the phases. -/
theorem secure_reachBarrier (hq : 1 < q) (hnum : Function.Injective num) (hw : w.isSome = true) :
    (reachBarrier env r q (.implicit r (num th)) n).Secure (barrierGuard q r parent num)
      (.barrier r) th
      (fun _ w' c' x => w'.isSome = true ∧ c' = c ∧ x = none) w (c + 1) none := by
  refine secure_take_bind fun l v hphases =>
    secure_onParData_bind (fun _ => ⟨rfl, rfl⟩) fun s p hp hv => ?_
  have hcnt : p.barrierCnt = l.length % q := by
    have hcount := hphases.count
    rw [hv] at hcount
    exact Option.some.inj hcount
  rw [show ((s.parData r).elim 0 fun p => p.barrierCnt) = p.barrierCnt by rw [hp]; rfl]
  refine Secure.bind (secure_pickBarrier hq hphases hcnt (by rw [hv]; rfl)) ?_
  rintro _ _ _ _ ⟨rfl, rfl, b, rfl, hb, rfl⟩
  refine secure_record_bind hnum hw (secure_release_bind (hphases.snoc hb) ?_)
  exact ⟨rfl, rfl, rfl⟩

/-! ### The callbacks of the threads -/

/-- The code of a thread that is to arrive `m` more times; `joined` and `joined'` say
whether it is in the team before and after. -/
def Settles (q : ℕ) (r : RegionId) (parent : TaskId) (num : ThreadId → ℕ) (th : ThreadId)
    (joined joined' : Bool) (m : ℕ) (k : Prog Unit) : Prop :=
  ∀ w c, w.isSome = joined → k.Secure (barrierGuard q r parent num) (.barrier r) th
    (fun _ w' c' x => w'.isSome = joined' ∧ c' = c ∧ x = none) w (m + c) none

theorem Quiet.settles {k : Prog Unit} {joined : Bool} (h : Quiet q r parent num k) :
    Settles q r parent num th joined joined 0 k :=
  fun _ _ hw => h.secure fun _ => ⟨hw, Nat.zero_add _, rfl⟩

/-- The one callback that counts: one arrival, under the mutex of the region. -/
theorem settles_barrierBegin (hq : 1 < q) (hnum : Function.Injective num) :
    Settles q r parent num th true true 1 (cbBarrierBegin env th r q (.implicit r (num th))) := by
  intro w c hw
  refine secure_read_bind fun s hs hown => ?_
  obtain ⟨td, htd⟩ : ∃ td, s.taskData (.implicit r (num th)) = some td := by
    rw [← hown] at hw
    obtain ⟨y, hy⟩ := Option.isSome_iff_exists.mp hw
    obtain ⟨td, htd, -⟩ := Option.map_eq_some_iff.mp hy
    exact ⟨td, htd⟩
  rw [show currTaskNode (.implicit r (num th)) s = some td.currTaskNode by
    rw [currTaskNode, htd]; rfl]
  refine quiet_addTime.secure_bind fun _ => Secure.bind (Nat.add_comm 1 c ▸
    secure_reachBarrier hq hnum hw) ?_
  rintro ⟨b, new⟩ w' _ _ ⟨hw', rfl, rfl⟩
  refine Quiet.secure (quiet_elim fun _ => Quiet.bind quiet_createNewNode fun _ =>
    Quiet.bind (quiet_onTaskData fun _ => rfl) fun _ => ?_) fun _ => ⟨hw', rfl, rfl⟩
  split_ifs
  · exact quiet_connectNodes
  · exact quiet_pure _

/-- A thread gives its own task a new record, or takes it away. -/
theorem secure_setTaskData {td : Option (TaskData NodeRef)}
    {Q : Unit → Option (Option NodeRef) → ℕ →
    Place → Prop} (hnum : Function.Injective num) (hparent : ofRegion r parent = false)
    (hQ : Q () (td.map fun td => td.currBarrierNode) c none) :
    (write fun s => s.setTaskData (.implicit r (num th)) td : Prog Unit).Secure
      (barrierGuard q r parent num)
      (.barrier r) th Q w c none := by
  intro s hs hw
  have hother : TaskId.implicit r (num th) ≠ parent := by
    rintro rfl
    simp [ofRegion] at hparent
  refine ⟨fun _ => ⟨stable_setTaskData (fun he => absurd he hother) hs, fun t' ht' => ?_⟩,
    rfl, ?_⟩
  · show (Function.update s.taskData _ td _).map _ = _
    rw [Function.update_of_ne]
    · rfl
    · exact fun he => ht' (hnum (TaskId.implicit.inj he).2)
  · show Q () ((Function.update s.taskData _ td _).map _) c none
    rw [Function.update_self]
    exact hQ

/-- `cb_sync_region` of an arrival finds the record of the region. -/
theorem settles_arrival {joined : Bool} (hq : 1 < q) (hnum : Function.Injective num)
    (hjoined : joined = true) : Settles q r parent num th joined true 1
      (deref (fun s => s.parData r) fun p => if 1 < p.teamSize then
        cbBarrierBegin env th r p.teamSize (.implicit r (num th)) else pure ()) := by
  subst hjoined
  intro w c hw
  refine secure_read_bind fun s hs _ => ?_
  obtain ⟨p, hp, hsize⟩ := Option.map_eq_some_iff.mp hs.1
  obtain ⟨rfl, -⟩ := Prod.mk.inj hsize
  rw [hp, Option.elim_some, if_pos hq]
  exact settles_barrierBegin hq hnum w c hw

/-- A thread joins the team. -/
theorem settles_implicitTaskBegin {joined : Bool} {threadNum : ℕ} (hnum : Function.Injective num)
    (hparent : ofRegion r parent = false) : Settles q r parent num th joined true 0
      (cbImplicitTaskBegin env r (.implicit r (num th)) threadNum) := by
  intro w c _
  refine secure_read_bind fun s hs _ => ?_
  obtain ⟨p, hp, hq⟩ := Option.map_eq_some_iff.mp hs.1
  obtain ⟨-, hpt⟩ := Prod.mk.inj hq
  rw [hp, Option.elim_some]
  refine secure_read_bind fun s' hs' _ => ?_
  obtain ⟨td, htd⟩ := hs'.2
  rw [hpt, show currTaskNode parent s' = some td.currTaskNode by rw [currTaskNode, htd]; rfl]
  exact quiet_createNewNode.secure_bind fun _ => secure_setTaskData hnum hparent
    ⟨rfl, Nat.zero_add c, rfl⟩

/-- A thread leaves the team. -/
theorem settles_implicitTaskEnd {joined : Bool} {threadNum : ℕ} (hnum : Function.Injective num)
    (hparent : ofRegion r parent = false) : Settles q r parent num th joined false 0
      (cbImplicitTaskEnd env th (.implicit r (num th)) threadNum) := by
  intro w c _
  refine secure_read_bind fun s _ hown => ?_
  rcases htd : s.taskData (.implicit r (num th)) with - | td
  · have hnone : w = none := by
      rw [← hown]
      show (s.taskData _).map _ = none
      rw [htd]
      rfl
    exact ⟨by rw [hnone]; rfl, Nat.zero_add c, rfl⟩
  · exact quiet_joinSink.secure_bind fun _ =>
      secure_setTaskData hnum hparent ⟨rfl, Nat.zero_add c, rfl⟩

end Secure

/-- One callback of a thread. -/
theorem settles_callback {e : Event} {joined joined' : Bool} (hq : 1 < q)
    (hnum : Function.Injective num) (hparent : ofRegion r parent = false) (hth : e.thread = th)
    (h : takesPart r parent (num th) joined e = some joined') :
    Settles q r parent num th joined joined' (if arrivesAt r e then 1 else 0) (callback env e) := by
  subst hth
  have hquiet : ∀ {k : Prog Unit}, Quiet q r parent num k → joined = joined' →
      arrivesAt r e = false →
      Settles q r parent num e.thread joined joined' (if arrivesAt r e then 1 else 0) k := by
    intro k hk hj ha
    rw [ha, ← hj]
    exact hk.settles
  obtain ⟨th, call⟩ := e
  cases call with
  | threadBegin => exact hquiet quiet_setThreadData (Option.some.inj h) rfl
  | threadEnd => exact hquiet quiet_setThreadData (Option.some.inj h) rfl
  | taskSchedule first prior second => exact hquiet quiet_taskSchedule (Option.some.inj h) rfl
  | taskCreate pt new type =>
    simp only [takesPart] at h
    split_ifs at h with hnew
    exact hquiet (quiet_taskCreate (by simpa using hnew)) (Option.some.inj h) rfl
  | parallelBegin pt r' requested teamSize barriers =>
    simp only [takesPart] at h
    split_ifs at h with hr
    exact hquiet (quiet_parallelBegin hr) (Option.some.inj h) rfl
  | parallelEnd r' task =>
    simp only [takesPart] at h
    split_ifs at h with hr
    exact hquiet (quiet_parallelEnd hr) (Option.some.inj h) rfl
  | implicitTask endpoint r' task teamSize threadNum =>
    cases endpoint with
    | scopeBegin =>
      simp only [takesPart] at h
      split_ifs at h with htask hr hother
      · obtain rfl := Option.some.inj h
        subst htask hr
        exact settles_implicitTaskBegin hnum hparent
      · refine hquiet (quiet_deref fun _ => quiet_deref fun _ => Quiet.bind quiet_createNewNode
          fun _ => quiet_setTaskData (by simpa using hother) fun _ _ => rfl) (Option.some.inj h) rfl
    | scopeEnd =>
      simp only [takesPart] at h
      split_ifs at h with htask hother
      · obtain rfl := Option.some.inj h
        subst htask
        exact settles_implicitTaskEnd hnum hparent
      · rw [not_or] at hother
        exact hquiet (quiet_deref fun _ => Quiet.bind quiet_joinSink fun _ =>
          quiet_setTaskData (by simpa using hother.1) fun he _ => absurd he hother.2)
          (Option.some.inj h) rfl
  | syncRegion kind endpoint r' task =>
    show Settles q r parent num th joined joined' _ (cbSyncRegion env th kind endpoint r' task)
    rw [cbSyncRegion]
    by_cases hkind : kind = .barrier
    · subst hkind
      rw [if_pos rfl]
      cases endpoint with
      | scopeBegin =>
        simp only [takesPart] at h
        split_ifs at h with hr hjoined hother
        · -- an arrival at the region
          obtain rfl := Option.some.inj h
          obtain ⟨hj, rfl⟩ := hjoined
          subst hr
          rw [show arrivesAt r'
            ⟨th, .syncRegion .barrier .scopeBegin r' (.implicit r' (num th))⟩ = true
            by simp [arrivesAt]]
          exact settles_arrival hq hnum hj
        · refine hquiet (quiet_deref fun p => ?_) (Option.some.inj h) (by simp [arrivesAt, hr])
          split_ifs
          · exact quiet_barrierBegin hr (by simpa using hother)
          · exact quiet_pure _
      | scopeEnd =>
        refine hquiet (quiet_deref fun p => ?_) (Option.some.inj h) rfl
        split_ifs
        · exact quiet_deref fun _ => quiet_setLastTime
        · exact quiet_pure _
    · rw [if_neg hkind]
      refine hquiet (quiet_pure _) (Option.some.inj ?_) ?_
      · rw [← h]
        cases kind <;> cases endpoint <;> first | rfl | exact absurd rfl hkind
      · cases kind <;> cases endpoint <;> first | rfl | exact absurd rfl hkind
  | extLoop endpoint task lower upper =>
    cases endpoint with
    | scopeBegin => exact hquiet quiet_extLoopBegin (Option.some.inj h) rfl
    | scopeEnd => exact hquiet quiet_extLoopEnd (Option.some.inj h) rfl
  | extChunk task lower upper lastChunk => exact hquiet quiet_extChunk (Option.some.inj h) rfl

/-- The callbacks of a thread, one after the other. -/
theorem settles_callbacks {es : List Event} {joined joined' : Bool} (hq : 1 < q)
    (hnum : Function.Injective num) (hparent : ofRegion r parent = false)
    (hth : ∀ e ∈ es, e.thread = th)
    (h : es.foldlM (takesPart r parent (num th)) joined = some joined') :
    Settles q r parent num th joined joined' (arrivals r es) (callbacks env es) := by
  induction es generalizing joined with
  | nil =>
    obtain rfl := Option.some.inj h
    exact (quiet_pure ()).settles
  | cons e es ih =>
    rw [List.foldlM_cons] at h
    obtain ⟨mid, hmid, h⟩ := Option.bind_eq_some_iff.mp h
    have hrest := ih (fun e' he' => hth e' (List.mem_cons_of_mem e he')) h
    intro w c hw
    have hcount : arrivals r (e :: es) + c =
        (if arrivesAt r e then 1 else 0) + (arrivals r es + c) := by
      rw [arrivals, List.countP_cons, arrivals]
      omega
    show (callback env e >>= fun _ => callbacks env es).Secure _ _ _ _ w
      (arrivals r (e :: es) + c) none
    rw [hcount]
    refine Secure.bind (settles_callback hq hnum hparent (hth e List.mem_cons_self) hmid w _ hw) ?_
    rintro _ w' _ _ ⟨hw', rfl, rfl⟩
    exact hrest w' c hw'

/-- **No arrival is lost.**  Let threads run callbacks while a region is there, in
any order of their instructions.  Whenever the mutex of its barriers is free, the
counter is the number of arrivals modulo the requested team size, and all arrivals of
a phase have the same barrier node.  A thread that has ended has arrived as often as
it was at a barrier.  The calls at barriers meet no null pointer (`takesPart`); other
callbacks may, and end there, where the code crashes. -/
theorem barrier_phases {p : ParallelRegionData NodeRef} {td : TaskData NodeRef} {es : List Event}
    {ts : List ThreadId} {c : Conf Tool Mutex ThreadId} (hpar : s.parData r = some p)
    (hsize : 1 < p.teamSize) (hcnt : p.barrierCnt = 0)
    (htd : s.taskData p.parentTaskData = some td) (hparent : ofRegion r p.parentTaskData = false)
    (hnum : Function.Injective num)
    (hes : ∀ th, ((onThread es th).foldlM (takesPart r p.parentTaskData (num th))
      (s.taskData (.implicit r (num th))).isSome).isSome = true)
    (hrun : (threads env s (onThread es)).run ts = some c) :
    let log := (threads env s (onThread es)).sections
      (barrierGuard p.teamSize r p.parentTaskData num) (.barrier r) ts
    (c.holder (.barrier r) = none → Phases p.teamSize log
      ((c.mem.parData r).map fun p => (p.barrierCnt, p.currBarrierNode))) ∧
    ∀ th, c.Ended th → (log.map Prod.fst).count th = arrivals r (onThread es th) := by
  have hstart : Conf.Guarded (barrierGuard p.teamSize r p.parentTaskData num) (.barrier r)
      (fun th => arrivals r (onThread es th)) [] (threads env s (onThread es)) := by
    refine Conf.guarded_start ⟨?_, td, htd⟩ ?_ fun th => ?_
    · rw [hpar]
      rfl
    · show Phases _ [] ((s.parData r).map _)
      rw [hpar, Option.map_some, hcnt]
      exact phases_nil
    · obtain ⟨joined', hjoined⟩ := Option.isSome_iff_exists.mp (hes th)
      have hth : ∀ e ∈ onThread es th, e.thread = th := fun e he =>
        of_decide_eq_true (List.mem_filter.mp he).2
      have hown : ((barrierGuard p.teamSize r p.parentTaskData num).own th s).isSome =
          (s.taskData (.implicit r (num th))).isSome := by
        show (Option.map _ _).isSome = _
        rw [Option.isSome_map]
      have hsettles : Settles p.teamSize r p.parentTaskData num th
          (s.taskData (.implicit r (num th))).isSome joined' (arrivals r (onThread es th))
          (callbacks env (onThread es th)) :=
        settles_callbacks hsize hnum hparent hth hjoined
      have hcode := hsettles _ 0 hown
      refine (bind_ret (callbacks env (onThread es th))) ▸ Secure.bind hcode ?_
      rintro _ _ _ _ ⟨-, rfl, rfl⟩
      exact ⟨rfl, rfl⟩
  exact ⟨hstart.run_free hrun, fun th hend => hstart.run_count hrun hend⟩

/-- Thread 1 joins while thread 0 is at the barrier, and waits for the mutex. -/
def meeting : List ThreadId :=
  List.replicate 26 0 ++ List.replicate 23 1 ++ List.replicate 38 0 ++ List.replicate 33 1

set_option maxRecDepth 20000 in
theorem meeting_run : ∃ s c p td, Tool.run { clock := fun k => k } regionOpened = some s ∧
    (threads { clock := fun k => k } s (onThread bothArrive)).run meeting = some c ∧
    (s.parData 7 = some p ∧ p.teamSize = 2 ∧ p.barrierCnt = 0 ∧
      p.parentTaskData = .initial 0 ∧
      s.taskData (.initial 0) = some td ∧ ∀ t, s.taskData (.implicit 7 t) = none) ∧
    c.holder (.barrier 7) = none ∧ c.Ended 0 ∧ c.Ended 1 :=
  ⟨_, _, _, _, rfl, rfl, ⟨rfl, rfl, rfl, rfl, rfl, fun _ => rfl⟩, rfl, rfl, rfl⟩

theorem barrier_phases_bothArrive :
    ∃ s c log v, Tool.run { clock := fun k => k } regionOpened = some s ∧
    (threads { clock := fun k => k } s (onThread bothArrive)).run meeting = some c ∧
    log = (threads { clock := fun k => k } s (onThread bothArrive)).sections
      (barrierGuard 2 7 (.initial 0) id) (.barrier 7) meeting ∧
    Phases 2 log v ∧ (log.map Prod.fst).count 0 = 1 ∧ (log.map Prod.fst).count 1 = 1 := by
  obtain ⟨s, c, p, td, hs, hrun, ⟨hpar, hsize, hcnt, hparent, htd, hnone⟩, hfree, hend₀,
    hend₁⟩ :=
    meeting_run
  have hes : ∀ th, ((onThread bothArrive th).foldlM (takesPart 7 p.parentTaskData (id th))
      (s.taskData (.implicit 7 (id th))).isSome).isSome = true := by
    intro th
    rw [hparent, hnone]
    rcases eq_or_ne th 0 with rfl | h₀
    · decide
    · rcases eq_or_ne th 1 with rfl | h₁
      · decide
      · have hempty : onThread bothArrive th = [] := by
          simp [onThread, bothArrive, h₀.symm, h₁.symm]
        rw [hempty]
        rfl
  have hphases :=
    barrier_phases hpar (by rw [hsize]; decide) hcnt (hparent ▸ htd) (by rw [hparent]; rfl)
    Function.injective_id hes hrun
  rw [hsize, hparent] at hphases
  exact ⟨s, c, _, _, hs, hrun, rfl, hphases.1 hfree, hphases.2 0 hend₀, hphases.2 1 hend₁⟩

end Locked

end Tdg
