import Stanli.Lib.Interleaving

/-!
# The worker pool of a reduction

`ReduceExecutionContext` runs the jobs of a reduction on its workers and on the thread that calls `run`.
The calling thread writes the call into the context, counts the generation up under the lock and wakes the
workers; they all take job numbers from one counter; a worker that finds no more of them counts `remaining_`
down, and the calling thread waits for zero.

`Step` lets any of the calling threads and the workers take its next step, or end its wait.  The workers start behind the
handshake of the constructor, and the context is not destroyed.
-/

namespace Stanli

namespace WorkerPool

open Interleaving Function

variable {C D E : Type} {W : ℕ}

/-! ## Threads -/

/-- A call of `run`: so many jobs.  A job changes the data of its own child only, and may throw. -/
structure Call (D E : Type) where
  count : ℕ
  work : ℕ → D → D × Option E

/-- Where a thread is in `consume`. -/
inductive Consume
  | take
  | work (i : ℕ)

/-- Where a calling thread is in `run`. -/
inductive Caller (D E : Type)
  | outside
  | prepare (call : Call D E)
  | publish (call : Call D E)
  | notify (call : Call D E)
  | consume (call : Call D E) (stage : Consume)
  /-- About to look at `remaining_`. -/
  | wait (call : Call D E)
  | asleep (call : Call D E)
  | leave (call : Call D E)

/-- Where a worker is, with the generation it has seen. -/
inductive Worker
  /-- About to look at `generation_`. -/
  | wait (seen : UInt64)
  | asleep (seen : UInt64)
  | consume (seen : UInt64) (stage : Consume)
  /-- Behind `consume`, not yet counted. -/
  | done (seen : UInt64)

def Consume.held : Consume → Option ℕ
  | take => none
  | work i => some i

/-- The job a thread is at. -/
def Caller.held : Caller D E → Option ℕ
  | consume _ stage => stage.held
  | _ => none

def Worker.held : Worker → Option ℕ
  | consume _ stage => stage.held
  | _ => none

/-- What `done_.notify_all()` does to a calling thread. -/
def Caller.wake : Caller D E → Caller D E
  | asleep call => wait call
  | c => c

/-- What `wake_.notify_all()` does to a worker. -/
def Worker.wake : Worker → Worker
  | asleep seen => wait seen
  | w => w

/-! ## The context -/

/-- The members of the context, with the threads and the children that the jobs change. -/
structure Pool (C D E : Type) (W : ℕ) where
  busy : Bool
  jobs : ℕ
  work : ℕ → D → D × Option E
  errors : List (Option E)
  next : ℕ
  remaining : ℕ
  generation : UInt64
  callers : C → Caller D E
  workers : Fin W → Worker
  children : ℕ → D
  /-- History: the children when the last call was published, and its jobs that have been run. -/
  before : ℕ → D
  ran : List ℕ

def Pool.start (children : ℕ → D) : Pool C D E W where
  busy := false
  jobs := 0
  work := fun _ d => (d, none)
  errors := []
  next := 0
  remaining := 0
  generation := 0
  callers := fun _ => .outside
  workers := fun _ => .wait 0
  children := children
  before := children
  ran := []

namespace Pool

variable (s : Pool C D E W)

/-- The job each thread is at. -/
def held : C ⊕ Fin W → Option ℕ :=
  Sum.elim (fun c => (s.callers c).held) fun w => (s.workers w).held

/-- `work_(state_, i)`; what it throws is kept. -/
def runJob (i : ℕ) : Pool C D E W :=
  { s with
    children := update s.children i (s.work i (s.children i)).1
    errors :=
      match (s.work i (s.children i)).2 with
      | some e => s.errors.set i (some e)
      | none => s.errors
    ran := i :: s.ran }

variable [DecidableEq C]

/-- A step of a calling thread; behind the last one the call is over, with the exception of `run`. -/
inductive CallerStep (s : Pool C D E W) (c : C) : Option (Call D E × Option E) → Pool C D E W → Prop
  | enter (call : Call D E) (h : s.callers c = .outside) (hbusy : s.busy = false) :
      CallerStep s c none { s with busy := true, callers := update s.callers c (.prepare call) }
  /-- `reduce_sum context already in use`. -/
  | refuse (h : s.callers c = .outside) (hbusy : s.busy = true) : CallerStep s c none s
  | prepare {call : Call D E} (h : s.callers c = .prepare call) :
      CallerStep s c none
        { s with
          jobs := call.count
          work := call.work
          errors := List.replicate call.count none
          callers := update s.callers c (.publish call) }
  | publish {call : Call D E} (h : s.callers c = .publish call) :
      CallerStep s c none
        { s with
          next := 0
          remaining := W
          generation := s.generation + 1
          callers := update s.callers c (.notify call)
          before := s.children
          ran := [] }
  | notify {call : Call D E} (h : s.callers c = .notify call) :
      CallerStep s c none
        { s with
          callers := update s.callers c (.consume call .take)
          workers := fun w => (s.workers w).wake }
  | take {call : Call D E} (h : s.callers c = .consume call .take) (hnext : s.next < s.jobs) :
      CallerStep s c none
        { s with next := s.next + 1, callers := update s.callers c (.consume call (.work s.next)) }
  | miss {call : Call D E} (h : s.callers c = .consume call .take) (hnext : s.jobs ≤ s.next) :
      CallerStep s c none { s with next := s.next + 1, callers := update s.callers c (.wait call) }
  | work {call : Call D E} {i : ℕ} (h : s.callers c = .consume call (.work i)) :
      CallerStep s c none { s.runJob i with callers := update s.callers c (.consume call .take) }
  | sleep {call : Call D E} (h : s.callers c = .wait call) (hrem : s.remaining ≠ 0) :
      CallerStep s c none { s with callers := update s.callers c (.asleep call) }
  | collect {call : Call D E} (h : s.callers c = .wait call) (hrem : s.remaining = 0) :
      CallerStep s c none { s with callers := update s.callers c (.leave call) }
  | leave {call : Call D E} (h : s.callers c = .leave call) :
      CallerStep s c (some (call, s.errors.findSome? id))
        { s with busy := false, callers := update s.callers c .outside }

omit [DecidableEq C] in
/-- A step of a worker. -/
inductive WorkerStep (s : Pool C D E W) (w : Fin W) : Pool C D E W → Prop
  | sleep {seen : UInt64} (h : s.workers w = .wait seen) (hseen : s.generation = seen) :
      WorkerStep s w { s with workers := update s.workers w (.asleep seen) }
  | begin {seen : UInt64} (h : s.workers w = .wait seen) (hseen : s.generation ≠ seen) :
      WorkerStep s w { s with workers := update s.workers w (.consume s.generation .take) }
  | take {seen : UInt64} (h : s.workers w = .consume seen .take) (hnext : s.next < s.jobs) :
      WorkerStep s w
        { s with next := s.next + 1, workers := update s.workers w (.consume seen (.work s.next)) }
  | miss {seen : UInt64} (h : s.workers w = .consume seen .take) (hnext : s.jobs ≤ s.next) :
      WorkerStep s w { s with next := s.next + 1, workers := update s.workers w (.done seen) }
  | work {seen : UInt64} {i : ℕ} (h : s.workers w = .consume seen (.work i)) :
      WorkerStep s w { s.runJob i with workers := update s.workers w (.consume seen .take) }
  | count {seen : UInt64} (h : s.workers w = .done seen) :
      WorkerStep s w
        { s with
          remaining := s.remaining - 1
          callers := fun c => (s.callers c).wake
          workers := update s.workers w (.wait seen) }

/-- A step of any thread. -/
inductive ThreadStep (s : Pool C D E W) : Option (Call D E × Option E) → Pool C D E W → Prop
  | caller {c : C} {l : Option (Call D E × Option E)} {s' : Pool C D E W} (h : s.CallerStep c l s') :
      ThreadStep s l s'
  | worker {w : Fin W} {s' : Pool C D E W} (h : s.WorkerStep w s') : ThreadStep s none s'

/-- A step of any thread, or the end of a wait for no reason. -/
inductive Step (s : Pool C D E W) : Option (Call D E × Option E) → Pool C D E W → Prop
  | thread {l : Option (Call D E × Option E)} {s' : Pool C D E W} (h : s.ThreadStep l s') : Step s l s'
  | wakeCaller {c : C} {call : Call D E} (h : s.callers c = .asleep call) :
      Step s none { s with callers := update s.callers c (.wait call) }
  | wakeWorker {w : Fin W} {seen : UInt64} (h : s.workers w = .asleep seen) :
      Step s none { s with workers := update s.workers w (.wait seen) }

/-- The states the context reaches, with the calls that are over. -/
abbrev Reaches (children : ℕ → D) : Pool C D E W → List (Call D E × Option E) → Prop :=
  Runs Step (start children)

end Pool

/-! ## One call after the other -/

namespace Call

variable (call : Call D E) (children : ℕ → D)

/-- Every job has run. -/
def effect : ℕ → D := fun i => if i < call.count then (call.work i (children i)).1 else children i

/-- The exception of the first job that throws. -/
def thrown : Option E := (List.range call.count).findSome? fun i => (call.work i (children i)).2

end Call

/-- What calls leave and throw that run one after the other. -/
inductive Serially (children : ℕ → D) : List (Call D E × Option E) → (ℕ → D) → Prop
  | nil : Serially children [] children
  | call {hist : List (Call D E × Option E)} {ds : ℕ → D} (h : Serially children hist ds) (call : Call D E) :
      Serially children (hist ++ [(call, call.thrown ds)]) (call.effect ds)

end WorkerPool

end Stanli
