import Mathlib.Data.List.MinMax
import Mathlib.Data.Prod.Lex
import Mathlib.Logic.Function.Basic
import TgeCore.Library.Machine
import TgeCore.Library.Tally

namespace TgeCore.Threading
open Library

inductive EJobPriority where
  | high
  | normal
  | low
deriving DecidableEq

/-- The enumerator's value. The lowest one goes first. -/
def EJobPriority.value : EJobPriority → Nat
  | .high => 0
  | .normal => 1
  | .low => 2

/-- What a job of the scheduler executes: RunOnePending of a group, or something else. -/
inductive Body (G : Type) where
  | runner (group : G)
  | other
deriving DecidableEq

/-- SWorkItem, with the scheduler's job that its work captures. -/
structure SWorkItem (G : Type) where
  job : Nat
  body : Body G
  priority : EJobPriority
  sequence : UInt64
deriving DecidableEq

/-- What the work queue pops the least of. -/
def SWorkItem.key {G : Type} (i : SWorkItem G) : Nat ×ₗ Nat := toLex (i.priority.value, i.sequence.toNat)

/-- The state of a group. Its jobs are named by how many it had counted before them. -/
structure CJobGroup.SState where
  activeJobs : Nat := 0
  cancelled : Bool := false
  pending : List Nat := []
  submitted : Nat := 0
deriving DecidableEq

/-- How far a thread is in RunOnePending. `checking` is before the load of the cancelled
flag of one of the group's ancestors. -/
inductive RunOneAt (G : Type) where
  | starting (group : G)
  | popped (group : G) (job : Nat)
  | checking (group : G) (job : Nat) (ancestor : G)
  | running (group : G) (job : Nat)
  | settling (group : G) (job : Nat)
deriving DecidableEq

/-- Where a thread of the pool is: waiting for work, in the scheduler's wrapper around a
job before, between and after its two counters, or in what the job executes. -/
inductive WorkerAt (G : Type) where
  | idle
  | taken (job : Nat) (body : Body G)
  | between (job : Nat) (body : Body G)
  | runner (job : Nat) (run : RunOneAt G)
  | other (job : Nat)
  | finishing (job : Nat)
  | exited
deriving DecidableEq

/-- A call in progress on any thread, from inside a job too. WaitForAllJobs carries the
jobs whose SubmitJob had returned when it was called. -/
inductive JobCallAt (G : Type) where
  | submitting (group : G) (priority : EJobPriority)
  | counted (group : G) (job : Nat) (priority : EJobPriority)
  | scheduling (body : Body G) (priority : EJobPriority)
  | executing (job : Nat) (body : Body G) (priority : EJobPriority)
  | notifying (job : Nat)
  | waiting (group : G)
  | helping (group : G) (run : RunOneAt G)
  | pausing (group : G)
  | cancelling (group : G)
  | swapping (group : G)
  | dropping (group : G) (jobs : List Nat)
  | locking (before : List Nat)
  | loadingPending (before : List Nat)
  | loadingActive (before : List Nat)
  | done
deriving DecidableEq

/-- Groups, scheduler and pool, with the threads that are in them. The scheduler's jobs
are numbered by `nextJob`, and `returned` are those whose SubmitJob is over. -/
structure CJobSystem (G : Type) where
  groups : G → CJobGroup.SState := fun _ => {}
  workQueue : List (SWorkItem G) := []
  nextSequence : UInt64 := 0
  shouldTerminate : Bool := false
  pendingJobs : Nat := 0
  activeJobs : Nat := 0
  isLocked : Bool := false
  nextJob : Nat := 0
  returned : List Nat := []
  calls : List (JobCallAt G) := []
  workers : List (WorkerAt G)

/-- A thread calls SubmitJob, Wait or Cancel of a group, SubmitJob or WaitForAllJobs of
the scheduler, or Terminate of the pool; a call or a thread of the pool goes on. -/
inductive JobMove (G : Type) where
  | submit (group : G) (priority : EJobPriority)
  | wait (group : G)
  | cancel (group : G)
  | schedule (priority : EJobPriority)
  | waitForAllJobs
  | terminate
  | call (index : Nat)
  | work (worker : Nat)
deriving DecidableEq

/-- What a step does to the jobs of a group, and what a wait returns. -/
inductive JobSeen (G : Type) where
  | nothing
  | submitted (group : G) (job : Nat)
  | pushed (group : G) (job : Nat) (priority : EJobPriority)
  | started (group : G) (job : Nat)
  | skipped (group : G) (job : Nat)
  | dropped (group : G) (jobs : List Nat)
  | settled (group : G) (jobs : List Nat)
  | waited (group : G)
  | waitedForAll
deriving DecidableEq

section Model
variable {G : Type} [DecidableEq G]

def CJobSystem.setGroup (s : CJobSystem G) (group : G) (state : CJobGroup.SState) : CJobSystem G :=
  { s with groups := Function.update s.groups group state }

def CJobSystem.setCall (s : CJobSystem G) (index : Nat) (call : JobCallAt G) : CJobSystem G :=
  { s with calls := s.calls.set index call }

def CJobSystem.setWorker (s : CJobSystem G) (index : Nat) (worker : WorkerAt G) : CJobSystem G :=
  { s with workers := s.workers.set index worker }

@[simp] theorem CJobSystem.groups_setGroup_self (s : CJobSystem G) (group : G) (state : CJobGroup.SState) :
    (s.setGroup group state).groups group = state := Function.update_self ..

theorem CJobSystem.groups_setGroup_of_ne (s : CJobSystem G) {group g : G} (state : CJobGroup.SState)
    (hne : g ≠ group) : (s.setGroup group state).groups g = s.groups g := Function.update_of_ne hne ..

omit [DecidableEq G] in
@[simp] theorem CJobSystem.groups_setCall (s : CJobSystem G) (index : Nat) (call : JobCallAt G) :
    (s.setCall index call).groups = s.groups := rfl

omit [DecidableEq G] in
@[simp] theorem CJobSystem.groups_setWorker (s : CJobSystem G) (index : Nat) (worker : WorkerAt G) :
    (s.setWorker index worker).groups = s.groups := rfl

/-- One load of IsCancelled. The body starts after the last ancestor. -/
def CJobSystem.check (parent : G → Option G) (s : CJobSystem G) (group : G) (job : Nat) (ancestor : G) :
    RunOneAt G × JobSeen G :=
  if (s.groups ancestor).cancelled then (.settling group job, .skipped group job)
  else
    match parent ancestor with
    | none => (.running group job, .started group job)
    | some next => (.checking group job next, .nothing)

/-- The next step of RunOnePending, or what it returns. -/
def CJobSystem.runOne (parent : G → Option G) (s : CJobSystem G) :
    RunOneAt G → CJobSystem G × (RunOneAt G ⊕ Bool) × JobSeen G
  | .starting group =>
    match (s.groups group).pending with
    | [] => (s, .inr false, .nothing)
    | job :: rest =>
      (s.setGroup group { s.groups group with pending := rest }, .inl (.popped group job), .nothing)
  | .popped group job =>
    (s, .inl (s.check parent group job group).1, (s.check parent group job group).2)
  | .checking group job ancestor =>
    (s, .inl (s.check parent group job ancestor).1, (s.check parent group job ancestor).2)
  | .running group job => (s, .inl (.settling group job), .nothing)
  | .settling group job =>
    (s.setGroup group { s.groups group with activeJobs := (s.groups group).activeJobs - 1 }, .inr true,
      .settled group [job])

/-- RunOnePending changes groups only. -/
theorem CJobSystem.runOne_frame (parent : G → Option G) (s : CJobSystem G) (run : RunOneAt G) :
    (s.runOne parent run).1 = { s with groups := (s.runOne parent run).1.groups } := by
  cases run with
  | starting group =>
    simp only [runOne]
    split
    · rfl
    · rfl
  | _ => rfl

/-- The next step of a call. A thread that waits for all jobs holds the scheduler's
mutex from one evaluation of its predicate's loads to the other. -/
def CJobSystem.callStep (parent : G → Option G) (s : CJobSystem G) (index : Nat) :
    JobCallAt G → Option (CJobSystem G × JobSeen G)
  | .submitting group priority =>
    let g := s.groups group
    some ((s.setGroup group { g with activeJobs := g.activeJobs + 1, submitted := g.submitted + 1 }).setCall
      index (.counted group g.submitted priority), .submitted group g.submitted)
  | .counted group job priority =>
    let g := s.groups group
    some ((s.setGroup group { g with pending := g.pending ++ [job] }).setCall index
      (.scheduling (.runner group) priority), .pushed group job priority)
  | .scheduling body priority =>
    some ({ s with pendingJobs := s.pendingJobs + 1, nextJob := s.nextJob + 1 }.setCall index
      (.executing s.nextJob body priority), .nothing)
  | .executing job body priority =>
    let item : SWorkItem G := { job, body, priority, sequence := s.nextSequence }
    some ({ s with workQueue := s.workQueue ++ [item], nextSequence := s.nextSequence + 1 }.setCall index
      (.notifying job), .nothing)
  | .notifying job => some ({ s with returned := s.returned ++ [job] }.setCall index .done, .nothing)
  | .waiting group =>
    if (s.groups group).activeJobs = 0 then some (s.setCall index .done, .waited group)
    else some (s.setCall index (.helping group (.starting group)), .nothing)
  | .helping group run =>
    let next := s.runOne parent run
    some (next.1.setCall index
      (match next.2.1 with
        | .inl run' => .helping group run'
        | .inr true => .waiting group
        | .inr false => .pausing group), next.2.2)
  | .pausing group => some (s.setCall index (.waiting group), .nothing)
  | .cancelling group =>
    some ((s.setGroup group { s.groups group with cancelled := true }).setCall index (.swapping group),
      .nothing)
  | .swapping group =>
    let jobs := (s.groups group).pending
    some ((s.setGroup group { s.groups group with pending := [] }).setCall index
      (if jobs = [] then .done else .dropping group jobs), .dropped group jobs)
  | .dropping group jobs =>
    let g := s.groups group
    some ((s.setGroup group { g with activeJobs := g.activeJobs - jobs.length }).setCall index .done,
      .settled group jobs)
  | .locking before =>
    if s.isLocked then none
    else some ({ s with isLocked := true }.setCall index (.loadingPending before), .nothing)
  | .loadingPending before =>
    if s.pendingJobs = 0 then some (s.setCall index (.loadingActive before), .nothing)
    else some ({ s with isLocked := false }.setCall index (.locking before), .nothing)
  | .loadingActive before =>
    if s.activeJobs = 0 then some ({ s with isLocked := false }.setCall index .done, .waitedForAll)
    else some ({ s with isLocked := false }.setCall index (.locking before), .nothing)
  | .done => none

/-- The next step of a thread of the pool. -/
def CJobSystem.workStep (parent : G → Option G) (s : CJobSystem G) (index : Nat) :
    WorkerAt G → Option (CJobSystem G × JobSeen G)
  | .idle =>
    match s.workQueue.argmin SWorkItem.key with
    | some top =>
      some ({ s with workQueue := s.workQueue.erase top }.setWorker index (.taken top.job top.body), .nothing)
    | none => if s.shouldTerminate then some (s.setWorker index .exited, .nothing) else none
  | .taken job body =>
    some ({ s with pendingJobs := s.pendingJobs - 1 }.setWorker index (.between job body), .nothing)
  | .between job body =>
    some ({ s with activeJobs := s.activeJobs + 1 }.setWorker index
      (match body with
        | .runner group => .runner job (.starting group)
        | .other => .other job), .nothing)
  | .runner job run =>
    let next := s.runOne parent run
    some (next.1.setWorker index
      (match next.2.1 with
        | .inl run' => .runner job run'
        | .inr _ => .finishing job), next.2.2)
  | .other job => some (s.setWorker index (.finishing job), .nothing)
  | .finishing _ =>
    if s.isLocked then none
    else some ({ s with activeJobs := s.activeJobs - 1 }.setWorker index .idle, .nothing)
  | .exited => none

/-- A call begins. -/
def CJobSystem.begin (s : CJobSystem G) (call : JobCallAt G) : Option (CJobSystem G × JobSeen G) :=
  some ({ s with calls := s.calls ++ [call] }, .nothing)

def CJobSystem.step (parent : G → Option G) (s : CJobSystem G) :
    JobMove G → Option (CJobSystem G × JobSeen G)
  | .submit group priority => s.begin (.submitting group priority)
  | .wait group => s.begin (.waiting group)
  | .cancel group => s.begin (.cancelling group)
  | .schedule priority => s.begin (.scheduling .other priority)
  | .waitForAllJobs => s.begin (.locking s.returned)
  | .terminate => some ({ s with shouldTerminate := true }, .nothing)
  | .call index => (s.calls[index]?).bind (s.callStep parent index)
  | .work worker => (s.workers[worker]?).bind (s.workStep parent worker)

/-- `parent` gives the group whose job made a group, if a job did. -/
def jobSystem {G : Type} [DecidableEq G] (parent : G → Option G) :
    Machine (CJobSystem G) (JobMove G) (JobSeen G) := ⟨CJobSystem.step parent⟩

/-- A pool with its threads, none of which has found work yet. -/
def CJobSystem.create (numThreads : Nat) : CJobSystem G :=
  { workers := List.replicate numThreads .idle }

end Model

end TgeCore.Threading
