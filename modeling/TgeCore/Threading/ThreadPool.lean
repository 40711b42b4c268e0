import TgeCore.Threading.JobSystem

namespace TgeCore.Threading
open Library

/-- SWorkItem of the pool. The number tells how many items were queued before it; it is not
in the code. -/
structure CThreadPool.SWorkItem (W : Type) where
  work : W
  priority : EJobPriority
  sequence : UInt64
  number : Nat
deriving DecidableEq

/-- The operator < of two items. The queue has its greatest item on top. -/
def CThreadPool.SWorkItem.less {W : Type} (a b : SWorkItem W) : Bool :=
  if a.priority ≠ b.priority then b.priority.value < a.priority.value else b.sequence < a.sequence

/-- Where a worker is: before the evaluation of its wait's predicate, blocked on the
condition, with the work that it has moved out of the queue, inside the work, or out of
its loop. -/
inductive CThreadPool.WorkerAt (W : Type) where
  | locking
  | waiting
  | holding (item : SWorkItem W)
  | executing (item : SWorkItem W)
  | exited
deriving DecidableEq

/-- Where a call of Execute is: before its locked section, before its notify, or over. -/
inductive CThreadPool.ExecuteAt (W : Type) where
  | locking (work : W) (priority : EJobPriority)
  | notifying
  | done
deriving DecidableEq

/-- Where Terminate is: not called, before its locked section, before its notify, before
the join of a thread, or over. -/
inductive CThreadPool.TerminateAt where
  | uncalled
  | locking
  | notifying
  | joining (thread : Nat)
  | returned
deriving DecidableEq

/-- The pool with its threads and the calls in progress. The mutex is not part of it: what
is done under the lock is one step. -/
structure CThreadPool (W : Type) where
  threads : List (CThreadPool.WorkerAt W)
  workQueue : List (CThreadPool.SWorkItem W) := []
  nextSequence : UInt64 := 0
  shouldTerminate : Bool := false
  executes : List (CThreadPool.ExecuteAt W) := []
  terminating : CThreadPool.TerminateAt := .uncalled
  queued : Nat := 0
deriving DecidableEq

namespace CThreadPool

/-- A thread calls Execute, or a call of it goes on and its notify wakes a worker; a thread
calls Terminate, or it goes on; a worker evaluates its predicate and takes the item on
top, goes on otherwise, or wakes for no reason. -/
inductive Move (W : Type) where
  | execute (work : Option W) (priority : EJobPriority)
  | call (index : Nat) (woken : Option Nat)
  | terminate
  | terminating
  | pop (thread top : Nat)
  | work (thread : Nat)
  | wake (thread : Nat)
deriving DecidableEq

inductive Seen (W : Type) where
  | nothing
  | queued (item : SWorkItem W)
  | popped (item : SWorkItem W)
  | started (item : SWorkItem W)
  | finished (item : SWorkItem W)
deriving DecidableEq

section Model
variable {W : Type} [DecidableEq W]

def setThread (s : CThreadPool W) (thread : Nat) (worker : WorkerAt W) : CThreadPool W :=
  { s with threads := s.threads.set thread worker }

def setExecute (s : CThreadPool W) (index : Nat) (call : ExecuteAt W) : CThreadPool W :=
  { s with executes := s.executes.set index call }

/-- A worker that is woken takes the lock again. -/
def WorkerAt.woken : WorkerAt W → WorkerAt W
  | .waiting => .locking
  | worker => worker

/-- One waiting thread wakes, if there is one. -/
def notifyOne (s : CThreadPool W) : Option Nat → Option (CThreadPool W)
  | some thread => if s.threads[thread]? = some .waiting then some (s.setThread thread .locking) else none
  | none => if .waiting ∈ s.threads then none else some s

/-- An empty function is not queued. -/
def executeBegin (s : CThreadPool W) (work : Option W) (priority : EJobPriority) : CThreadPool W :=
  match work with
  | some work => { s with executes := s.executes ++ [.locking work priority] }
  | none => { s with executes := s.executes ++ [.done] }

def executeStep (s : CThreadPool W) (index : Nat) (woken : Option Nat) :
    ExecuteAt W → Option (CThreadPool W × Seen W)
  | .locking work priority =>
    let item : SWorkItem W := { work, priority, sequence := s.nextSequence, number := s.queued }
    some ({ s with
        workQueue := s.workQueue ++ [item]
        nextSequence := s.nextSequence + 1
        queued := s.queued + 1 }.setExecute index .notifying, .queued item)
  | .notifying => (s.notifyOne woken).map fun next => (next.setExecute index .done, .nothing)
  | .done => none

def terminateStep (s : CThreadPool W) : TerminateAt → Option (CThreadPool W × Seen W)
  | .uncalled => none
  | .locking => some ({ s with shouldTerminate := true, terminating := .notifying }, .nothing)
  | .notifying =>
    some ({ s with threads := s.threads.map WorkerAt.woken, terminating := .joining 0 }, .nothing)
  | .joining thread =>
    match s.threads[thread]? with
    | some .exited => some ({ s with terminating := .joining (thread + 1) }, .nothing)
    | some _ => none
    | none => some ({ s with threads := [], terminating := .returned }, .nothing)
  | .returned => none

/-- The predicate holds, as there is work. Of several items none of which is less than
another the heap may have any on top. -/
def popStep (s : CThreadPool W) (thread top : Nat) : Option (CThreadPool W × Seen W) :=
  if s.threads[thread]? = some .locking then
    (s.workQueue[top]?).bind fun item =>
      if ∀ other ∈ s.workQueue, ¬item.less other then
        some ({ s with workQueue := s.workQueue.eraseIdx top }.setThread thread (.holding item), .popped item)
      else none
  else none

def workStep (s : CThreadPool W) (thread : Nat) : WorkerAt W → Option (CThreadPool W × Seen W)
  | .locking =>
    if s.workQueue = [] then
      some (s.setThread thread (if s.shouldTerminate then .exited else .waiting), .nothing)
    else none
  | .waiting => none
  | .holding item => some (s.setThread thread (.executing item), .started item)
  | .executing item => some (s.setThread thread .locking, .finished item)
  | .exited => none

def step (s : CThreadPool W) : Move W → Option (CThreadPool W × Seen W)
  | .execute work priority => some (s.executeBegin work priority, .nothing)
  | .call index woken => (s.executes[index]?).bind (s.executeStep index woken)
  | .terminate => if s.terminating = .uncalled then some ({ s with terminating := .locking }, .nothing) else none
  | .terminating => s.terminateStep s.terminating
  | .pop thread top => s.popStep thread top
  | .work thread => (s.threads[thread]?).bind (s.workStep thread)
  | .wake thread => (s.notifyOne (some thread)).map fun next => (next, .nothing)

end Model

def create {W : Type} (numThreads : Nat) : CThreadPool W := { threads := List.replicate numThreads .locking }

end CThreadPool

def threadPool (W : Type) [DecidableEq W] :
    Machine (CThreadPool W) (CThreadPool.Move W) (CThreadPool.Seen W) := ⟨CThreadPool.step⟩

end TgeCore.Threading
