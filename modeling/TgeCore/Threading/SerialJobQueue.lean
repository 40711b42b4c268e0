import Mathlib.Data.Finset.Basic
import Mathlib.Logic.Function.Basic
import TgeCore.Library.Machine

namespace TgeCore.Threading
open Library

/-- SEntry. A job is named by how many were submitted before it, and so is its result. -/
structure SEntry (I : Type) where
  jobId : I
  job : Nat
deriving DecidableEq

/-- Where the worker is in WorkerThreadMain: before a lock, with the mutex held before the
predicate of its wait, past it, or with the entry it has popped, and in the work of an
entry and the push of its result. -/
inductive SerialWorkerAt (I : Type) where
  | none
  | locking
  | evaluating
  | willBlock
  | blocked
  | leaving
  | popped (entry : SEntry I) (shouldProcess : Bool)
  | running (entry : SEntry I)
  | completing (entry : SEntry I)
  | pushing (entry : SEntry I)
  | unlocking
  | exiting
  | exited
deriving DecidableEq

/-- Where the thread that owns the queue is in Start, in Stop, or in Flush, which calls both. -/
inductive SerialOwnerAt where
  | idle
  | loadingStart
  | clearingStop
  | settingRunning
  | launching
  | loadingStop (flush : Bool)
  | settingStop (flush : Bool)
  | notifying (flush : Bool)
  | joining (flush : Bool)
  | resetting (flush : Bool)
  | lockingFlush
  | clearing
  | unlockingFlush
deriving DecidableEq

/-- How far a thread is in Submit, Poll or Cancel. -/
inductive SerialClientAt (I : Type) where
  | out
  | lockingSubmit (jobId : I)
  | pushing (jobId : I)
  | unlockingSubmit
  | notifying
  | lockingPoll
  | polling
  | lockingCancel (jobId : I)
  | cancelling (jobId : I)
  | unlocking
deriving DecidableEq

structure CSerialJobQueue (I T : Type) where
  isRunning : Bool := false
  shouldStop : Bool := false
  pending : List (SEntry I) := []
  completed : List Nat := []
  cancelled : Finset I := ∅
  isLocked : Bool := false
  nextJob : Nat := 0
  worker : SerialWorkerAt I := .none
  owner : SerialOwnerAt := .idle
  client : T → SerialClientAt I := fun _ => .out

/-- The owner calls Start, Stop or Flush; a thread calls Submit, Poll or Cancel; the
owner, the worker or a thread goes on. -/
inductive SerialMove (I T : Type) where
  | start
  | stop
  | flush
  | submit (thread : T) (jobId : I)
  | poll (thread : T)
  | cancel (thread : T) (jobId : I)
  | owner
  | worker
  | client (thread : T)
deriving DecidableEq

/-- What a step does that the queue's users can tell. -/
inductive SerialSeen (I : Type) where
  | nothing
  | submitted (entry : SEntry I)
  | cancelled (jobId : I)
  | flushed
  | discarded (job : Nat)
  | ran (job : Nat)
  | pushed (job : Nat)
  | returned (result : Option Nat)
deriving DecidableEq

section Model
variable {I T : Type} [DecidableEq I] [DecidableEq T]

/-- notify_one. The worker is the only one that waits, and locks again when it is woken. -/
def CSerialJobQueue.notify (s : CSerialJobQueue I T) : CSerialJobQueue I T :=
  match s.worker with
  | .blocked => { s with worker := .locking }
  | _ => s

/-- The wait's predicate. -/
def CSerialJobQueue.hasWork (s : CSerialJobQueue I T) : Bool := s.shouldStop || !s.pending.isEmpty

def CSerialJobQueue.workerStep (s : CSerialJobQueue I T) : Option (CSerialJobQueue I T × SerialSeen I) :=
  match s.worker with
  | .none => none
  | .locking => if s.isLocked then none else some ({ s with isLocked := true, worker := .evaluating }, .nothing)
  | .evaluating => some ({ s with worker := if s.hasWork then .leaving else .willBlock }, .nothing)
  | .willBlock => some ({ s with isLocked := false, worker := .blocked }, .nothing)
  | .blocked => none
  | .leaving =>
    if s.shouldStop then some ({ s with worker := .exiting }, .nothing)
    else
      match s.pending with
      | [] => none
      | entry :: rest =>
        if entry.jobId ∈ s.cancelled then
          some ({ s with
            pending := rest
            cancelled := s.cancelled.erase entry.jobId
            worker := .popped entry false }, .discarded entry.job)
        else some ({ s with pending := rest, worker := .popped entry true }, .nothing)
  | .popped entry shouldProcess =>
    some ({ s with isLocked := false, worker := if shouldProcess then .running entry else .locking },
      .nothing)
  | .running entry => some ({ s with worker := .completing entry }, .ran entry.job)
  | .completing entry =>
    if s.isLocked then none else some ({ s with isLocked := true, worker := .pushing entry }, .nothing)
  | .pushing entry =>
    some ({ s with completed := s.completed ++ [entry.job], worker := .unlocking }, .pushed entry.job)
  | .unlocking => some ({ s with isLocked := false, worker := .locking }, .nothing)
  | .exiting => some ({ s with isLocked := false, worker := .exited }, .nothing)
  | .exited => none

/-- Flush goes on after its Stop. -/
def afterStop (flush : Bool) : SerialOwnerAt := if flush then .lockingFlush else .idle

def CSerialJobQueue.ownerStep (s : CSerialJobQueue I T) : Option (CSerialJobQueue I T × SerialSeen I) :=
  match s.owner with
  | .idle => none
  | .loadingStart => some ({ s with owner := if s.isRunning then .idle else .clearingStop }, .nothing)
  | .clearingStop => some ({ s with shouldStop := false, owner := .settingRunning }, .nothing)
  | .settingRunning => some ({ s with isRunning := true, owner := .launching }, .nothing)
  | .launching => some ({ s with worker := .locking, owner := .idle }, .nothing)
  | .loadingStop flush =>
    some ({ s with owner := if s.isRunning then .settingStop flush else afterStop flush }, .nothing)
  | .settingStop flush => some ({ s with shouldStop := true, owner := .notifying flush }, .nothing)
  | .notifying flush => some ({ s.notify with owner := .joining flush }, .nothing)
  | .joining flush =>
    match s.worker with
    | .exited => some ({ s with worker := .none, owner := .resetting flush }, .nothing)
    | _ => none
  | .resetting flush => some ({ s with isRunning := false, owner := afterStop flush }, .nothing)
  | .lockingFlush =>
    if s.isLocked then none else some ({ s with isLocked := true, owner := .clearing }, .nothing)
  | .clearing =>
    some ({ s with pending := [], cancelled := ∅, completed := [], owner := .unlockingFlush }, .flushed)
  | .unlockingFlush => some ({ s with isLocked := false, owner := .loadingStart }, .nothing)

def CSerialJobQueue.at (s : CSerialJobQueue I T) (thread : T) (at' : SerialClientAt I) :
    CSerialJobQueue I T :=
  { s with client := Function.update s.client thread at' }

def CSerialJobQueue.clientStep (s : CSerialJobQueue I T) (thread : T) :
    Option (CSerialJobQueue I T × SerialSeen I) :=
  match s.client thread with
  | .out => none
  | .lockingSubmit jobId =>
    if s.isLocked then none else some ({ s.at thread (.pushing jobId) with isLocked := true }, .nothing)
  | .pushing jobId =>
    let entry : SEntry I := { jobId, job := s.nextJob }
    some ({ s.at thread .unlockingSubmit with pending := s.pending ++ [entry], nextJob := s.nextJob + 1 },
      .submitted entry)
  | .unlockingSubmit => some ({ s.at thread .notifying with isLocked := false }, .nothing)
  | .notifying => some (s.notify.at thread .out, .nothing)
  | .lockingPoll =>
    if s.isLocked then none else some ({ s.at thread .polling with isLocked := true }, .nothing)
  | .polling => some ({ s.at thread .unlocking with completed := s.completed.tail }, .returned s.completed.head?)
  | .lockingCancel jobId =>
    if s.isLocked then none else some ({ s.at thread (.cancelling jobId) with isLocked := true }, .nothing)
  | .cancelling jobId =>
    -- A job that is pending is removed, and nothing else is marked then.
    if s.pending.any fun e => e.jobId = jobId then
      some ({ s.at thread .unlocking with pending := s.pending.filter fun e => e.jobId ≠ jobId },
        .cancelled jobId)
    else some ({ s.at thread .unlocking with cancelled := insert jobId s.cancelled }, .cancelled jobId)
  | .unlocking => some ({ s.at thread .out with isLocked := false }, .nothing)

/-- A thread that is in no call begins one. -/
def CSerialJobQueue.begin (s : CSerialJobQueue I T) (thread : T) (at' : SerialClientAt I) :
    Option (CSerialJobQueue I T × SerialSeen I) :=
  match s.client thread with
  | .out => some (s.at thread at', .nothing)
  | _ => none

def CSerialJobQueue.ownerCalls (s : CSerialJobQueue I T) (at' : SerialOwnerAt) :
    Option (CSerialJobQueue I T × SerialSeen I) :=
  match s.owner with
  | .idle => some ({ s with owner := at' }, .nothing)
  | _ => none

def CSerialJobQueue.step (s : CSerialJobQueue I T) :
    SerialMove I T → Option (CSerialJobQueue I T × SerialSeen I)
  | .start => s.ownerCalls .loadingStart
  | .stop => s.ownerCalls (.loadingStop false)
  | .flush => s.ownerCalls (.loadingStop true)
  | .submit thread jobId => s.begin thread (.lockingSubmit jobId)
  | .poll thread => s.begin thread .lockingPoll
  | .cancel thread jobId => s.begin thread (.lockingCancel jobId)
  | .owner => s.ownerStep
  | .worker => s.workerStep
  | .client thread => s.clientStep thread

def serialJobQueue (I T : Type) [DecidableEq I] [DecidableEq T] :
    Machine (CSerialJobQueue I T) (SerialMove I T) (SerialSeen I) := ⟨CSerialJobQueue.step⟩

end Model

end TgeCore.Threading
