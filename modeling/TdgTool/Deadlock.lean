/-
TdgTool/Deadlock.lean

The threads never block each other.

The mutexes are taken in one order: the mutex of a barrier, then `_addMutex`, then
the exits of a node, then the entries of a node.  A thread that runs callbacks
holds a mutex only while it takes mutexes that come later in this order
(`ranked_callback`).  So threads never wait for each other in a circle, whatever
callbacks they run and however their instructions are interleaved
(`callbacks_complete`).

Callbacks that are not interrupted are among the schedules: every run of the
callbacks, each in one step, is a schedule of the threads (`run_is_schedule`).
-/
import TdgTool.Locking

namespace Tdg

namespace Locked

open Threads Threads.Code

variable {env : Env} {s s' : Tool} {g : Graph} {n u v : NodeRef} {f : Node → Node} {th : ThreadId}
  {type : NodeType} {genId : Bool} {parentNode : Option NodeRef} {task : TaskId} {r : RegionId}

/-! ### The order of the mutexes -/

section Order

variable {held : List Mutex} {id : ℤ}

/-- A callback that ends at a null pointer holds nothing. -/
theorem ranked_deref {A : Type} {f : Tool → Option A} {rest : A → Prog Unit}
    (h : ∀ a, (rest a).Ranked Mutex.rank held held) :
    (deref f rest).Ranked Mutex.rank held held := by
  rintro (- | a)
  · rfl
  · exact h a

theorem ranked_elim {A : Type} {o : Option A} {rest : A → Prog Unit}
    (h : ∀ a, (rest a).Ranked Mutex.rank held held) :
    (o.elim (pure ()) rest).Ranked Mutex.rank held held := by
  rcases o with - | a
  · rfl
  · exact h a

variable (hlow : ∀ m ∈ held, m.rank < 1)
include hlow

theorem ranked_isConnectedWith : (isConnectedWith u v).Ranked Mutex.rank held held := by
  have hexits : ∀ m ∈ held, m.rank < (Mutex.exits u).rank := fun m hm =>
    (hlow m hm).trans (show (1 : Fin 4) < 2 by decide)
  exact Ranked.bind (ranked_take hexits) fun _ => Ranked.keep (ranked_update _) fun _ =>
    Ranked.bind ranked_release fun _ => rfl

/-- The exits of the source come before the entries of the target. -/
theorem ranked_pushEdge : (pushEdge u v).Ranked Mutex.rank held held := by
  have hexits : ∀ m ∈ held, m.rank < (Mutex.exits u).rank := fun m hm =>
    (hlow m hm).trans (show (1 : Fin 4) < 2 by decide)
  have hentries : ∀ m ∈ .exits u :: held, m.rank < (Mutex.entries v).rank := by
    intro m hm
    rcases List.mem_cons.mp hm with rfl | hm
    · show (2 : Fin 4) < 3
      decide
    · exact (hlow m hm).trans (show (1 : Fin 4) < 3 by decide)
  exact Ranked.bind (ranked_take hexits) fun _ => Ranked.bind (ranked_take hentries) fun _ =>
    Ranked.keep (ranked_update _) fun _ => Ranked.keep (ranked_update _) fun _ =>
      Ranked.bind ranked_release fun _ => ranked_release

/-- The mutex of the exits is given back after the look, and taken again. -/
theorem ranked_connectNodes : (connectNodes u v).Ranked Mutex.rank held held := by
  refine Ranked.keep (ranked_isConnectedWith hlow) fun connected => ?_
  cases connected with
  | false => exact ranked_pushEdge hlow
  | true => rfl

/-- The two mutexes are held one after the other. -/
theorem ranked_disconnectNodes : (disconnectNodes u v).Ranked Mutex.rank held held := by
  have hexits : ∀ m ∈ held, m.rank < (Mutex.exits u).rank := fun m hm =>
    (hlow m hm).trans (show (1 : Fin 4) < 2 by decide)
  have hentries : ∀ m ∈ held, m.rank < (Mutex.entries v).rank := fun m hm =>
    (hlow m hm).trans (show (1 : Fin 4) < 3 by decide)
  exact Ranked.bind (ranked_take hexits) fun _ => Ranked.keep (ranked_update _) fun _ =>
    Ranked.bind ranked_release fun _ => Ranked.bind (ranked_take hentries) fun _ =>
      Ranked.keep (ranked_update _) fun _ => ranked_release

/-- `_addMutex` comes before the mutexes of the nodes, so `create_clean_node` may be
called under the barrier mutex only. -/
theorem ranked_createCleanNode : (createCleanNode type genId).Ranked Mutex.rank held held := by
  have hid : (newId genId).Ranked Mutex.rank held held := by
    cases genId with
    | false => rfl
    | true => exact ranked_update _
  have hadd : ∀ id n, (addNode id n).Ranked Mutex.rank held held := fun id n =>
    Ranked.bind (ranked_take hlow) fun _ => Ranked.keep (ranked_update _) fun _ => ranked_release
  exact Ranked.keep hid fun nid => Ranked.keep (ranked_update _) fun n =>
    Ranked.keep (hadd nid n) fun _ => rfl

/-- A creation takes `_addMutex`, and then the mutexes of an edge. -/
theorem ranked_createNewNode : (createNewNode env type parentNode).Ranked Mutex.rank held held :=
  Ranked.keep (ranked_createCleanNode hlow) fun _ =>
    Ranked.keep (ranked_elim fun _ => ranked_connectNodes hlow) fun _ =>
      Ranked.keep (Ranked.keep (ranked_update _) fun _ => ranked_update _) fun _ => rfl

omit hlow

/-- A node is taken out of the map under `_addMutex`. -/
theorem ranked_removeAndDelete : (removeAndDelete n).Ranked Mutex.rank [] [] := by
  refine ranked_deref fun nd => Ranked.keep ?_ fun _ => ranked_update _
  exact Ranked.bind (ranked_take (by simp)) fun _ => Ranked.keep (ranked_update _) fun _ =>
    ranked_release

theorem ranked_addTime : (addTime env th n).Ranked Mutex.rank held held :=
  Ranked.keep (ranked_update _) fun _ => ranked_update _

theorem ranked_setLastTime : (setLastTime env n).Ranked Mutex.rank held held :=
  Ranked.keep (ranked_update _) fun _ => ranked_update _

/-- Neither way into the sink holds a mutex when it calls `connectNodes`. -/
theorem ranked_joinSink {td : TaskData NodeRef} {threadNum : ℕ} :
    (joinSink env th td threadNum).Ranked Mutex.rank [] [] := by
  rw [joinSink]
  rcases td.currBarrierNode with - | b
  · exact Ranked.keep ranked_addTime fun _ => ranked_elim fun _ => ranked_connectNodes (by simp)
  · refine Ranked.keep (ranked_disconnectNodes (by simp)) fun _ =>
      Ranked.keep ranked_removeAndDelete fun _ => ?_
    split_ifs
    · exact ranked_elim fun _ => ranked_connectNodes (by simp)
    · rfl

/-- Under the barrier mutex all the others are taken. -/
theorem ranked_reachBarrier {q : ℕ} :
    (reachBarrier env r q task n).Ranked Mutex.rank [] [] := by
  have hlow : ∀ m ∈ [Mutex.barrier r], m.rank < 1 := by
    intro m hm
    obtain rfl := List.mem_singleton.mp hm
    show (0 : Fin 4) < 1
    decide
  refine Ranked.bind (ranked_take (by simp)) fun _ => Ranked.keep (ranked_update _) fun cnt =>
    Ranked.keep ?_ fun b => Ranked.keep (ranked_update _) fun _ =>
      Ranked.bind ranked_release fun _ => rfl
  rw [pickBarrier]
  split_ifs
  · exact Ranked.keep (ranked_createNewNode hlow) fun b =>
      Ranked.keep (ranked_update _) fun _ => rfl
  · refine Ranked.keep (ranked_update _) fun b =>
      Ranked.keep (ranked_elim fun _ => ranked_connectNodes hlow) fun _ =>
        Ranked.keep (ranked_update _) fun cnt' => Ranked.keep ?_ fun _ => rfl
    rw [resetBarrier]
    split_ifs
    · exact ranked_update _
    · rfl

/-- **Every callback takes its mutexes in order.** -/
theorem ranked_callback (env : Env) (e : Event) : (callback env e).Ranked Mutex.rank [] [] := by
  have hnil : ∀ m ∈ ([] : List Mutex), m.rank < 1 := by simp
  rcases e with ⟨th, call⟩
  cases call with
  | threadBegin | threadEnd => exact ranked_update _
  | implicitTask endpoint =>
    cases endpoint with
    | scopeBegin =>
      exact ranked_deref fun _ => ranked_deref fun _ =>
        Ranked.keep (ranked_createNewNode hnil) fun _ => ranked_update _
    | scopeEnd => exact ranked_deref fun _ => Ranked.keep ranked_joinSink fun _ => ranked_update _
  | parallelBegin =>
    exact ranked_deref fun _ => Ranked.keep ranked_addTime fun _ =>
      Ranked.keep (ranked_createCleanNode hnil) fun _ => ranked_update _
  | parallelEnd =>
    exact ranked_deref fun _ => Ranked.keep (ranked_update _) fun _ =>
      Ranked.keep ranked_setLastTime fun _ => Ranked.keep (ranked_update _) fun _ => ranked_update _
  | taskCreate parent new type =>
    cases type with
    | initial =>
      exact Ranked.keep (ranked_createNewNode hnil) fun _ =>
        Ranked.keep (ranked_update _) fun _ => ranked_update _
    | explicit =>
      exact Ranked.keep (ranked_update _) fun _ =>
        Ranked.keep (ranked_createNewNode hnil) fun _ => ranked_update _
    | implicit | target => rfl
  | taskSchedule =>
    exact Ranked.keep (ranked_deref fun _ => ranked_addTime) fun _ =>
      ranked_deref fun _ => ranked_setLastTime
  | syncRegion kind endpoint r task =>
    show (cbSyncRegion env th kind endpoint r task).Ranked Mutex.rank [] []
    rw [cbSyncRegion]
    split_ifs
    · refine ranked_deref fun parInfo => ?_
      split_ifs
      · cases endpoint with
        | scopeBegin =>
          refine ranked_deref fun _ => Ranked.keep ranked_addTime fun _ =>
            Ranked.keep ranked_reachBarrier fun b => ranked_elim fun _ =>
              Ranked.keep (ranked_createNewNode hnil) fun _ =>
                Ranked.keep (ranked_update _) fun _ => ?_
          split_ifs
          · exact ranked_connectNodes hnil
          · rfl
        | scopeEnd => exact ranked_deref fun _ => ranked_setLastTime
      · rfl
    · rfl
  | extLoop endpoint =>
    cases endpoint with
    | scopeBegin =>
      exact ranked_deref fun _ => Ranked.keep ranked_addTime fun _ =>
        Ranked.keep (ranked_createNewNode hnil) fun _ => Ranked.keep (ranked_update _) fun _ =>
          Ranked.keep (ranked_createCleanNode hnil) fun _ => ranked_update _
    | scopeEnd =>
      refine ranked_deref fun ws => Ranked.keep ?_ fun _ => Ranked.keep (ranked_update _) fun _ =>
        Ranked.keep ranked_setLastTime fun _ => Ranked.keep (ranked_update _) fun _ =>
          ranked_update _
      rw [closeLoop]
      rcases ws.lastChunkNode with - | chunk
      · exact Ranked.keep ranked_addTime fun _ => ranked_connectNodes hnil
      · exact Ranked.keep (ranked_update _) fun _ => ranked_addTime
  | extChunk task lower upper lastChunk =>
    refine ranked_deref fun ws => Ranked.keep ?_ fun _ => ?_
    · rw [closeChunk]
      rcases ws.lastChunkNode with - | chunk
      · exact ranked_addTime
      · split_ifs
        · rfl
        · exact Ranked.keep (ranked_update _) fun _ => ranked_addTime
    · split_ifs
      · rfl
      · exact Ranked.keep (ranked_createNewNode hnil) fun _ =>
          Ranked.keep (ranked_update _) fun _ =>
            Ranked.keep (ranked_deref fun _ => ranked_update _) fun _ =>
            Ranked.keep (ranked_deref fun _ => ranked_update _) fun _ =>
              Ranked.keep (ranked_update _) fun _ => Ranked.keep (ranked_connectNodes hnil) fun _ =>
                Ranked.keep (ranked_update _) fun _ => ranked_update _

/-- A thread gives back what it takes before its next callback. -/
theorem ranked_callbacks (env : Env) (es : List Event) :
    (callbacks env es).Ranked Mutex.rank [] [] := by
  refine ranked_seq fun k hk => ?_
  obtain ⟨e, -, rfl⟩ := List.mem_map.mp hk
  exact ranked_callback env e

end Order

/-! ### Threads that run callbacks -/

section Runs

variable {es : List Event} {S : Finset ThreadId}

/-- The callbacks that run on a thread. -/
def onThread (es : List Event) (th : ThreadId) : List Event := es.filter fun e => e.thread = th

/-- The threads before any callback. -/
def threads (env : Env) (s : Tool) (events : ThreadId → List Event) : Conf Tool Mutex ThreadId :=
  .start s fun th => callbacks env (events th)

/-- **No deadlock.**  Whatever callbacks finitely many threads run, in whatever
state of the tool and however their instructions are interleaved: no schedule goes
on for ever, and what has been done of the callbacks can be completed.  A callback
counts as completed when it has met a null pointer, where the code crashes
(`deref`). -/
theorem callbacks_complete {env : Env} {s : Tool} {events : ThreadId → List Event}
    {ts : List ThreadId} {c : Conf Tool Mutex ThreadId} (hS : ∀ th, th ∉ S → events th = [])
    (hrun : (threads env s events).run ts = some c) :
    (∀ next : ℕ → ThreadId, ∃ n, c.run ((List.range n).map next) = none) ∧
      ∃ ts' c', c.run ts' = some c' ∧ ∀ th, c'.Ended th := by
  obtain ⟨held, htidy⟩ := Conf.tidy_run (fun th => ranked_callbacks env (events th)) hrun
  -- a thread without callbacks has never had anything to do
  have hidle : ∀ th, th ∉ S → c.Ended th := by
    refine Conf.run_induction (P := fun c => ∀ th, th ∉ S → c.Ended th)
      (fun hs h => (hs.cutExpand h).2) (fun th hth => ?_) hrun
    show callbacks env (events th) = _
    rw [hS th hth]
    rfl
  exact ⟨Conf.run_ends hidle, htidy.completes hidle⟩

/-- The initial task opens a region for two threads. -/
def regionOpened : List Event :=
  [⟨0, .threadBegin⟩, ⟨1, .threadBegin⟩,
    ⟨0, .taskCreate (.initial 0) (.initial 0) .initial⟩,
    ⟨0, .parallelBegin (.initial 0) 7 2 2 1⟩]

/-- Both threads join the team and arrive at a barrier. -/
def bothArrive : List Event :=
  [⟨0, .implicitTask .scopeBegin 7 (.implicit 7 0) 2 0⟩,
    ⟨0, .syncRegion .barrier .scopeBegin 7 (.implicit 7 0)⟩,
    ⟨1, .implicitTask .scopeBegin 7 (.implicit 7 1) 2 1⟩,
    ⟨1, .syncRegion .barrier .scopeBegin 7 (.implicit 7 1)⟩]

/-- Thread 0 has got into the mutex of the barrier, and thread 1 has come up to
it. -/
def waiting : List ThreadId := List.replicate 26 0 ++ List.replicate 23 1

set_option maxRecDepth 20000 in
/-- At this point thread 1 waits for a mutex that thread 0 holds. -/
theorem waiting_run : ∃ s c, Tool.run { clock := fun k => k } regionOpened = some s ∧
    (threads { clock := fun k => k } s (onThread bothArrive)).run waiting = some c ∧
    c.holder (.barrier 7) = some 0 ∧ ∃ rest, c.code 1 = .lock (.barrier 7) rest :=
  ⟨_, _, rfl, rfl, rfl, _, rfl⟩

theorem callbacks_complete_bothArrive : ∃ s c,
    Tool.run { clock := fun k => k } regionOpened = some s ∧
      (threads { clock := fun k => k } s (onThread bothArrive)).run waiting = some c ∧
      c.holder (.barrier 7) = some 0 ∧ (∃ rest, c.code 1 = .lock (.barrier 7) rest) ∧
      (∀ next : ℕ → ThreadId, ∃ n, c.run ((List.range n).map next) = none) ∧
      ∃ ts c', c.run ts = some c' ∧ ∀ th, c'.Ended th := by
  obtain ⟨s, c, hs, hrun, hholder, hwait⟩ := waiting_run
  have hidle : ∀ th, th ∉ ({0, 1} : Finset ThreadId) → onThread bothArrive th = [] := by
    intro th hth
    obtain ⟨h₀, h₁⟩ : th ≠ 0 ∧ th ≠ 1 := by simpa using hth
    simp [onThread, bothArrive, h₀.symm, h₁.symm]
  exact ⟨s, c, hs, hrun, hholder, hwait, callbacks_complete hidle hrun⟩

/-- The first callback of a run is the first of its thread. -/
theorem onThread_cons_self {e : Event} :
    onThread (e :: es) e.thread = e :: onThread es e.thread := by
  simp [onThread]

theorem onThread_cons_of_ne {e : Event} (h : th ≠ e.thread) :
    onThread (e :: es) th = onThread es th := by
  simp [onThread, h.symm]

/-- **Every run is a schedule.**  The runs in which a callback is one step are among
the schedules of the threads.  Such a run meets no null pointer: there it would be
`none`. -/
theorem run_is_schedule (h : s.runFrom env es = some s') :
    ∃ ts c, (threads env s (onThread es)).run ts = some c ∧ c.mem = s' ∧
      ∀ th, c.Ended th := by
  induction es generalizing s with
  | nil =>
    obtain rfl := Option.some.inj h
    exact ⟨[], _, rfl, rfl, fun th => rfl⟩
  | cons e es ih =>
    rw [Tool.runFrom, List.foldlM_cons] at h
    obtain ⟨s₁, h₁, h⟩ := Option.bind_eq_some_iff.mp h
    obtain ⟨ts, c, hrun, hmem, hend⟩ := ih h
    -- the first callback in one go
    have hcode : (threads env s (onThread (e :: es))).code e.thread =
        callback env e >>= fun _ => callbacks env (onThread es e.thread) := by
      show callbacks env (onThread (e :: es) e.thread) = _
      rw [onThread_cons_self]
      rfl
    obtain ⟨ts₁, holder, hrun₁, hsole⟩ :=
      Conf.run_piece hcode (ranked_callback env e) Conf.sole_nil
    have hnext : (⟨((callback env e).alone s).2, holder,
        Function.update (threads env s (onThread (e :: es))).code e.thread
          (callbacks env (onThread es e.thread))⟩ : Conf Tool Mutex ThreadId) =
        threads env s₁ (onThread es) := by
      rw [hsole.eq_none, callback_alone s₁ h₁]
      refine congrArg (Conf.mk s₁ fun _ => none) (funext fun th => ?_)
      rcases eq_or_ne th e.thread with rfl | hth
      · rw [Function.update_self]
      · rw [Function.update_of_ne hth]
        show callbacks env (onThread (e :: es) th) = _
        rw [onThread_cons_of_ne hth]
    refine ⟨ts₁ ++ ts, c, ?_, hmem, hend⟩
    rw [Conf.run_append, hrun₁]
    show Conf.run _ ts = some c
    rw [← hrun]
    exact congrArg (fun c => Conf.run c ts) hnext

/-- An explicit task that another thread takes over. -/
def taskTaken : List Event :=
  [⟨0, .taskCreate (.initial 0) (.initial 0) .initial⟩,
    ⟨0, .taskCreate (.initial 0) (.explicit 0) .explicit⟩,
    ⟨1, .taskSchedule (.implicit 0 1) .yield (.explicit 0)⟩]

theorem run_is_schedule_taskTaken : ∃ s' ts c,
    Tool.runFrom { clock := fun k => k } .init taskTaken = some s' ∧
      (threads { clock := fun k => k } .init (onThread taskTaken)).run ts = some c ∧
      c.mem = s' ∧ ∀ th, c.Ended th := by
  have hrun : ∃ s', Tool.runFrom { clock := fun k => k } .init taskTaken = some s' := ⟨_, rfl⟩
  obtain ⟨s', hs'⟩ := hrun
  obtain ⟨ts, c, h⟩ := run_is_schedule hs'
  exact ⟨s', ts, c, hs', h⟩

end Runs

end Locked

end Tdg
