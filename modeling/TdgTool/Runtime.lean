/-
TdgTool/Runtime.lean

The OpenMP runtime as the tool sees it: which callback may be delivered next.

`callbacks.cc` relies on the order in which an OMPT runtime delivers its
events.  The runtime itself is not part of the repository, so its promises
are stated here as a transition system over what it has delivered so far:

* a thread executes one task at a time (`cur`); a task that has encountered a
  parallel region waits for it (`forked`), and one that was switched away
  from is `suspended`;
* the implicit task of thread 0 runs on the encountering thread, the others on
  idle threads, and late ends of the others may follow `parallelEnd`;
* no thread leaves a barrier before its whole team has reached it, and the
  last of a region's barriers is the last thing an implicit task does;
* explicit tasks are created by running tasks and scheduled in any order.

`allows` is the guard of a callback, `apply` its effect on the bookkeeping.
Nothing here mentions the task graph.
-/
import TdgTool.Callbacks

namespace Tdg

/-! ### What the runtime keeps track of -/

/-- Where a task stands. -/
inductive Standing
  | absent
  | ready
  | active
  | forked (r : RegionId)
  | suspended (th : ThreadId)
  | done
  deriving DecidableEq, Repr

namespace Standing

def isSuspended : Standing → Bool
  | .suspended _ => true
  | _ => false

end Standing

namespace TaskId

def isExplicit : TaskId → Bool
  | .explicit _ => true
  | _ => false

end TaskId

/-- A task: its standing, the region it belongs to, the number of worksharing
loops it has finished and whether it is inside one, the chunks each of its
loops has had, and the barriers it has reached and left. -/
structure TaskState where
  standing : Standing := .absent
  home : Option RegionId := none
  loops : ℕ := 0
  inLoop : Bool := false
  chunks : ℕ → ℕ := fun _ => 0
  arrived : ℕ := 0
  passed : ℕ := 0

inductive RegionStage
  | absent
  | opened
  | ended
  deriving DecidableEq, Repr

/-- A parallel region: its encountering task, the team size requested and the
one formed, the number of barriers each thread executes, the barrier arrivals
so far, and the nesting depth. -/
structure RegionState where
  stage : RegionStage := .absent
  parent : TaskId := .initial 0
  requested : ℕ := 0
  teamSize : ℕ := 0
  barriers : ℕ := 0
  arrivals : ℕ := 0
  depth : ℕ := 0
  deriving DecidableEq, Repr

structure Runtime where
  task : TaskId → TaskState
  region : RegionId → RegionState
  cur : ThreadId → Option TaskId
  alive : ThreadId → Bool

namespace Runtime

/-- Before the first callback. -/
def init : Runtime where
  task := fun _ => {}
  region := fun _ => {}
  cur := fun _ => none
  alive := fun _ => false

/-! ### Guards -/

variable (o : Runtime)

/-- The thread is executing the task. -/
def Acts (th : ThreadId) (τ : TaskId) : Prop :=
  o.cur th = some τ ∧ (o.task τ).standing = .active

/-- An implicit task is neither at a barrier nor past its last one. -/
def InBody : TaskId → Prop
  | .implicit r t =>
      (o.task (.implicit r t)).passed = (o.task (.implicit r t)).arrived ∧
      (o.task (.implicit r t)).arrived < (o.region r).barriers
  | _ => True

/-- Every thread of the team has begun at least `j` barriers. -/
def AllArrived (r : RegionId) (j : ℕ) : Prop :=
  ∀ t < (o.region r).teamSize, j ≤ (o.task (.implicit r t)).arrived

/-- The switched-away task ends here. -/
def Terminates (prior : TaskStatus) : Prop := prior = .complete ∨ prior = .cancel

/-- A task that a thread may take up: one that has not started, one suspended
on this thread, or an explicit task suspended on any thread. -/
def MayResume (th : ThreadId) (τ : TaskId) : Prop :=
  (o.task τ).standing = .ready ∨ (o.task τ).standing = .suspended th ∨
  τ.isExplicit = true ∧ (o.task τ).standing.isSuspended = true

instance (th : ThreadId) (τ : TaskId) : Decidable (o.Acts th τ) :=
  inferInstanceAs (Decidable (_ ∧ _))

instance : (τ : TaskId) → Decidable (o.InBody τ)
  | .implicit _ _ => inferInstanceAs (Decidable (_ ∧ _))
  | .initial _ => inferInstanceAs (Decidable True)
  | .explicit _ => inferInstanceAs (Decidable True)

instance (r : RegionId) (j : ℕ) : Decidable (o.AllArrived r j) :=
  inferInstanceAs (Decidable (∀ t < _, _))

instance (prior : TaskStatus) : Decidable (Terminates prior) :=
  inferInstanceAs (Decidable (_ ∨ _))

instance (th : ThreadId) (τ : TaskId) : Decidable (o.MayResume th τ) :=
  inferInstanceAs (Decidable (_ ∨ _ ∨ _))

/-- A new implicit task: thread 0 is the encountering thread, the others come
from the pool of idle threads. -/
def MayJoin (th : ThreadId) (r : RegionId) (t : ℕ) : Prop :=
  if t = 0 then
    o.cur th = some (o.region r).parent ∧
      (o.task (o.region r).parent).standing = .forked r
  else o.alive th = true ∧ o.cur th = none

instance (th : ThreadId) (r : RegionId) (t : ℕ) : Decidable (o.MayJoin th r t) :=
  inferInstanceAs (Decidable (ite _ _ _))

/-- A barrier callback of an implicit task, or of the initial task outside any
region (where the tool has no region data). -/
def allowsBarrier (th : ThreadId) (r : RegionId) : Endpoint → TaskId → Bool
  | .scopeBegin, .implicit r' t =>
      r' = r ∧ o.Acts th (.implicit r t) ∧ o.InBody (.implicit r t) ∧
      (o.task (.implicit r t)).inLoop = false
  | .scopeEnd, .implicit r' t =>
      -- released when the whole team has arrived
      r' = r ∧ o.Acts th (.implicit r t) ∧
      (o.task (.implicit r t)).passed < (o.task (.implicit r t)).arrived ∧
      o.AllArrived r (o.task (.implicit r t)).arrived
  | _, .initial i => o.Acts th (.initial i) ∧ (o.region r).stage = .absent
  | _, .explicit _ => false

/-- The callback may be delivered now. -/
def allows (e : Event) : Bool :=
  match e.call with
  | .threadBegin => o.alive e.thread = false
  | .threadEnd => o.alive e.thread = true ∧ o.cur e.thread = none
  | .taskCreate _ (.initial i) .initial =>
      -- one initial task, on a thread that has nothing to do
      i = 0 ∧ o.alive e.thread = true ∧ o.cur e.thread = none ∧
      (o.task (.initial 0)).standing = .absent
  | .taskCreate parent (.explicit n) .explicit =>
      o.Acts e.thread parent ∧ o.InBody parent ∧
      (o.task (.explicit n)).standing = .absent
  | .taskCreate _ _ _ => false
  | .taskSchedule first prior second =>
      o.Acts e.thread first ∧ o.MayResume e.thread second ∧
      (Terminates prior → first.isExplicit = true)
  | .parallelBegin parent r requested teamSize barriers =>
      o.Acts e.thread parent ∧ o.InBody parent ∧ (o.region r).stage = .absent ∧
      1 ≤ teamSize ∧ teamSize ≤ requested ∧ 1 ≤ barriers
  | .parallelEnd r task =>
      -- the encountering thread is back, and the team has left the last barrier
      (o.region r).stage = .opened ∧ (o.region r).parent = task ∧
      o.cur e.thread = some task ∧ (o.task task).standing = .forked r ∧
      (o.task (.implicit r 0)).standing = .done ∧ o.AllArrived r (o.region r).barriers
  | .implicitTask .scopeBegin r task teamSize threadNum =>
      -- the data cell of the task is new, and the thread is in the team only once
      task = .implicit r threadNum ∧ (o.region r).stage = .opened ∧
      threadNum < (o.region r).teamSize ∧ teamSize = (o.region r).teamSize ∧
      (o.task task).standing = .absent ∧ o.MayJoin e.thread r threadNum
  | .implicitTask .scopeEnd r task _ threadNum =>
      task = .implicit r threadNum ∧ o.Acts e.thread task ∧
      (o.task task).arrived = (o.region r).barriers ∧
      o.AllArrived r (o.region r).barriers
  | .syncRegion .barrier endpoint r task => o.allowsBarrier e.thread r endpoint task
  | .syncRegion _ _ _ task => o.Acts e.thread task ∧ o.InBody task
  -- a task is inside one loop at a time, and chunks belong to that loop
  | .extLoop .scopeBegin task _ _ =>
      task.isExplicit = false ∧ o.Acts e.thread task ∧ o.InBody task ∧
      (o.task task).inLoop = false
  | .extLoop .scopeEnd task _ _ =>
      o.Acts e.thread task ∧ o.InBody task ∧ (o.task task).inLoop = true
  | .extChunk task _ _ _ =>
      o.Acts e.thread task ∧ o.InBody task ∧ (o.task task).inLoop = true

/-! ### Effects -/

/-- Update one task. -/
@[simps -fullyApplied] def onTask (τ : TaskId) (f : TaskState → TaskState) : Runtime :=
  { o with task := Function.update o.task τ (f (o.task τ)) }

/-- Update one region. -/
@[simps -fullyApplied] def onRegion (r : RegionId) (f : RegionState → RegionState) : Runtime :=
  { o with region := Function.update o.region r (f (o.region r)) }

/-- Set what a thread executes. -/
@[simps -fullyApplied] def setCur (th : ThreadId) (τ : Option TaskId) : Runtime :=
  { o with cur := Function.update o.cur th τ }

@[simps -fullyApplied] def setAlive (th : ThreadId) (b : Bool) : Runtime :=
  { o with alive := Function.update o.alive th b }

/-- The nesting depth of a region that the task encounters. -/
def depthBelow (τ : TaskId) : ℕ :=
  match (o.task τ).home with
  | some r => (o.region r).depth + 1
  | none => 0

/-- The effect of a callback that may be delivered. -/
def apply (e : Event) : Runtime :=
  match e.call with
  | .threadBegin => o.setAlive e.thread true
  | .threadEnd => o.setAlive e.thread false
  | .taskCreate _ new .initial =>
      (o.onTask new fun _ => { standing := .active }).setCur e.thread (some new)
  | .taskCreate parent new .explicit =>
      o.onTask new fun _ => { standing := .ready, home := (o.task parent).home }
  | .taskCreate _ _ _ => o
  | .taskSchedule first prior second =>
      ((o.onTask first fun τ =>
          { τ with standing := if Terminates prior then .done else .suspended e.thread }).onTask
        second fun τ => { τ with standing := .active }).setCur e.thread (some second)
  | .parallelBegin parent r requested teamSize barriers =>
      (o.onTask parent fun τ => { τ with standing := .forked r }).onRegion r fun _ =>
        { stage := .opened, parent := parent, requested := requested,
          teamSize := teamSize, barriers := barriers, depth := o.depthBelow parent }
  | .parallelEnd r task =>
      (o.onTask task fun τ => { τ with standing := .active }).onRegion r fun ρ =>
        { ρ with stage := .ended }
  | .implicitTask .scopeBegin r task _ _ =>
      (o.onTask task fun _ => { standing := .active, home := some r }).setCur
        e.thread (some task)
  | .implicitTask .scopeEnd r task _ threadNum =>
      -- the thread with number 0 returns to the encountering task
      (o.onTask task fun τ => { τ with standing := .done }).setCur e.thread
        (if threadNum = 0 then some (o.region r).parent else none)
  | .syncRegion .barrier .scopeBegin r (.implicit _ t) =>
      (o.onTask (.implicit r t) fun τ => { τ with arrived := τ.arrived + 1 }).onRegion r
        fun ρ => { ρ with arrivals := ρ.arrivals + 1 }
  | .syncRegion .barrier .scopeEnd r (.implicit _ t) =>
      o.onTask (.implicit r t) fun τ => { τ with passed := τ.passed + 1 }
  | .syncRegion _ _ _ _ => o
  | .extLoop .scopeBegin task _ _ =>
      o.onTask task fun τ => { τ with inLoop := true }
  | .extLoop .scopeEnd task _ _ =>
      o.onTask task fun τ => { τ with inLoop := false, loops := τ.loops + 1 }
  | .extChunk task _ _ lastChunk =>
      -- a call with `last_chunk` announces no iterations
      if lastChunk then o
      else o.onTask task fun τ =>
        { τ with chunks := Function.update τ.chunks τ.loops (τ.chunks τ.loops + 1) }

/-- Deliver a callback, if it may be delivered. -/
def step (e : Event) : Option Runtime := if o.allows e then some (o.apply e) else none

/-- Deliver a sequence of callbacks from the beginning. -/
def run (es : List Event) : Option Runtime := es.foldlM step init

/-! ### Conditions on whole runs -/

/-- A condition on the bookkeeping before a callback and on the callback holds
at every step of the run. -/
def Throughout (P : Runtime → Event → Prop) (es : List Event) : Prop :=
  ∀ pre e post, es = pre ++ e :: post → ∀ o, run pre = some o → P o e

/-- What is checked prefix by prefix holds at every step. -/
theorem steps_of_prefixes {es : List Event} {Q : List Event → Runtime → Event → Prop}
    (h : ∀ i < es.length, ∀ o ∈ run (es.take i), ∀ e ∈ es[i]?, Q (es.take i) o e) (pre : List Event)
    (e : Event) (post : List Event) (hes : es = pre ++ e :: post) (o : Runtime)
    (ho : run pre = some o) : Q pre o e := by
  have hlt : pre.length < es.length := by
    rw [hes]
    simp
  have htake : es.take pre.length = pre := by rw [hes, List.take_left]
  have hget : es[pre.length]? = some e := by
    rw [hes]
    simp
  have hstep := h pre.length hlt o (by rw [htake, ho]; rfl) e (by rw [hget]; rfl)
  rwa [htake] at hstep

/-- A condition that can be decided is evaluated prefix by prefix. -/
theorem throughout_of_check {es : List Event} {P : Runtime → Event → Prop}
    [∀ o e, Decidable (P o e)]
    (h : ∀ i < es.length,
      (run (es.take i)).all (fun o => (es[i]?).all fun e => decide (P o e)) = true) :
    Throughout P es := by
  refine steps_of_prefixes fun i hi o ho e he => ?_
  have hi := h i hi
  rw [Option.mem_def.mp ho, Option.mem_def.mp he] at hi
  simpa using hi

/-- The runtime forms the team that is requested. -/
def fullTeam (e : Event) : Bool :=
  match e.call with
  | .parallelBegin _ _ requested teamSize _ => teamSize = requested
  | _ => true

/-- The runtime forms the team that is requested, or the team executes a single
barrier. -/
def fullTeamOrSingle (e : Event) : Bool :=
  match e.call with
  | .parallelBegin _ _ requested teamSize barriers => teamSize = requested ∨ barriers = 1
  | _ => true

theorem fullTeamOrSingle_of_fullTeam {e : Event} (h : fullTeam e = true) :
    fullTeamOrSingle e = true := by
  obtain ⟨th, c⟩ := e
  cases c <;> simp_all [fullTeam, fullTeamOrSingle]

/-- Every region that was begun has ended. -/
def RegionsEnded : Prop := ∀ r, (o.region r).stage ≠ .opened

/-- Every implicit and explicit task that was created has ended, and the
initial task, whose end is not reported, is not inside a loop. -/
def TasksDone : Prop :=
  (o.task (.initial 0)).inLoop = false ∧
    ∀ τ, τ ≠ .initial 0 → (o.task τ).standing = .absent ∨ (o.task τ).standing = .done

end Runtime

end Tdg
