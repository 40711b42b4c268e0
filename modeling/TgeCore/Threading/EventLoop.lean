import TgeCore.Threading.MpscFifo

namespace TgeCore.Threading
open Library

/-- How far a thread is in Post, or in Terminate past the store of the stop flag. -/
inductive CallAt where
  | out
  | enqueuing
  | waking
  | stopping
  | joining
deriving DecidableEq

/-- Where the loop's thread is in Run. -/
inductive RunAt where
  | checking
  | polling
  | resetting
  | watches
  | draining
  | running (next : Nat)
  | callback (current : Nat)
  | timers
  | ended
deriving DecidableEq

/-- What a poll wait returns with: the wake descriptor among what is readable, or
nothing of it (other descriptors, the timeout, a signal), or an error. -/
inductive Polled where
  | woken
  | unwoken
  | failed
deriving DecidableEq

/-- CEventLoop with its threads on Linux, from Initialize on. `pass` counts the poll
waits that have returned. -/
structure CEventLoop (A T V : Type) where
  posts : CMpscQueue A T V
  wakeCounter : Nat := 0
  isStopping : Bool := false
  runningPosts : List (Option V) := []
  call : T → CallAt := fun _ => .out
  run : RunAt := .checking
  pass : Nat := 0

/-- A thread calls Post, with the node new finds for it, calls Terminate, or goes on in
its call; the poll wait returns; the loop's thread goes on in Run. -/
inductive LoopMove (A T V : Type) where
  | post (thread : T) (callback : V) (node : A)
  | terminate (thread : T)
  | call (thread : T)
  | poll (result : Polled)
  | run
deriving DecidableEq

/-- A post at the exchange that puts it into the queue, and whether a posted callback
made it. -/
structure Posted (T V : Type) where
  thread : T
  post : V
  fromPost : Bool
  pass : Nat
deriving DecidableEq

/-- What a step does that callers can tell. -/
inductive LoopSeen (T V : Type) where
  | nothing
  | posted (entry : Posted T V)
  | ran (post : Option V) (pass : Nat)
deriving DecidableEq

/-- The loop's thread runs a callback of a watch, a post or a timer, or is between two. -/
def RunAt.runsCallbacks : RunAt → Bool
  | .watches => true
  | .callback _ => true
  | .timers => true
  | _ => false

def RunAt.inPosted : RunAt → Bool
  | .callback _ => true
  | _ => false

/-- The posts of this pass are drained, and the next wait has not returned. -/
def RunAt.drained : RunAt → Bool
  | .resetting => false
  | .watches => false
  | .draining => false
  | _ => true

/-- Where RunPosts has callbacks in its list. -/
def RunAt.inPosts : RunAt → Bool
  | .draining => true
  | .running _ => true
  | .callback _ => true
  | _ => false

theorem RunAt.drained_of_inPosted {run : RunAt} (h : run.inPosted = true) : run.drained = true := by
  cases run with
  | callback current => rfl
  | _ => cases h

/-- Post goes on to the wake once it is out of Enqueue. -/
def EnqueueAt.postAt {A V : Type} : EnqueueAt A V → CallAt
  | .out => .waking
  | _ => .enqueuing

theorem EnqueueAt.postAt_eq {A V : Type} (pc : EnqueueAt A V) :
    (pc ≠ .out ↔ pc.postAt = .enqueuing) ∧ (pc.postAt = .enqueuing ∨ pc.postAt = .waking) := by
  cases pc with
  | out => simp [postAt]
  | _ => simp [postAt]

section Model
variable {A T V : Type} [DecidableEq A] [DecidableEq T]

def CEventLoop.at (s : CEventLoop A T V) (thread : T) (at' : CallAt) : CEventLoop A T V :=
  { s with call := Function.update s.call thread at' }

/-- Post up to the node it makes. On the loop's own thread only a callback makes it. -/
def CEventLoop.post (main : T) (s : CEventLoop A T V) (thread : T) (callback : V) (node : A) :
    Option (CEventLoop A T V × LoopSeen T V) :=
  if s.call thread = .out ∧ (thread = main → s.run.runsCallbacks = true) then
    (s.posts.step (.enqueue thread callback node)).map fun next =>
      ({ s.at thread .enqueuing with posts := next.1 }, .nothing)
  else none

/-- Terminate up to the store of the stop flag. It is not called on the loop's thread. -/
def CEventLoop.terminate (main : T) (s : CEventLoop A T V) (thread : T) :
    Option (CEventLoop A T V × LoopSeen T V) :=
  if s.call thread = .out ∧ thread ≠ main then
    some ({ s.at thread .stopping with isStopping := true }, .nothing)
  else none

/-- The next step of a thread's Post or Terminate. Both end with the wake's write,
and Terminate then waits for the loop's thread. -/
def CEventLoop.callStep (main : T) (s : CEventLoop A T V) (thread : T) :
    Option (CEventLoop A T V × LoopSeen T V) :=
  match s.call thread with
  | .out => none
  | .enqueuing =>
    (s.posts.produce thread).map fun next =>
      ({ s.at thread (next.1.producer thread).postAt with posts := next.1 },
        match next.2 with
        | .exchanged t input =>
          .posted ⟨t, input, decide (thread = main) && s.run.inPosted, s.pass⟩
        | _ => .nothing)
  | .waking => some ({ s.at thread .out with wakeCounter := s.wakeCounter + 1 }, .nothing)
  | .stopping => some ({ s.at thread .joining with wakeCounter := s.wakeCounter + 1 }, .nothing)
  | .joining => none

/-- CPoller::Wait returns. The wake descriptor is readable only while its counter is
not zero. -/
def CEventLoop.poll (s : CEventLoop A T V) (result : Polled) :
    Option (CEventLoop A T V × LoopSeen T V) :=
  if s.run = .polling then
    match result with
    | .woken =>
      if s.wakeCounter ≠ 0 then some ({ s with run := .resetting, pass := s.pass + 1 }, .nothing)
      else none
    | .unwoken => some ({ s with run := .watches, pass := s.pass + 1 }, .nothing)
    | .failed => some ({ s with run := .ended, pass := s.pass + 1 }, .nothing)
  else none

/-- The next step of the Dequeue calls that RunPosts begins with. -/
def CMpscQueue.drain (s : CMpscQueue A T V) : Option (CMpscQueue A T V × QueueSeen T V) :=
  match s.consumer with
  | .out => s.step .dequeue
  | _ => s.consume

/-- The next step of Run, outside the poll wait. -/
def CEventLoop.runStep (s : CEventLoop A T V) : Option (CEventLoop A T V × LoopSeen T V) :=
  match s.run with
  | .checking => some ({ s with run := if s.isStopping then .ended else .polling }, .nothing)
  | .polling => none
  | .resetting => some ({ s with wakeCounter := 0, run := .watches }, .nothing)
  | .watches => some ({ s with run := .draining }, .nothing)
  | .draining =>
    s.posts.drain.map fun next =>
      match next.2 with
      | .dequeued output =>
        ({ s with posts := next.1, runningPosts := s.runningPosts ++ [output] }, .nothing)
      | .empty => ({ s with posts := next.1, run := .running 0 }, .nothing)
      | _ => ({ s with posts := next.1 }, .nothing)
  | .running next =>
    match s.runningPosts[next]? with
    | some post => some ({ s with run := .callback next }, .ran post s.pass)
    | none => some ({ s with runningPosts := [], run := .timers }, .nothing)
  | .callback current => some ({ s with run := .running (current + 1) }, .nothing)
  | .timers => some ({ s with run := .checking }, .nothing)
  | .ended => none

/-- The loop's thread goes on in Run only when no callback of it is in a call. -/
def CEventLoop.step (main : T) (s : CEventLoop A T V) :
    LoopMove A T V → Option (CEventLoop A T V × LoopSeen T V)
  | .post thread callback node => s.post main thread callback node
  | .terminate thread => s.terminate main thread
  | .call thread => s.callStep main thread
  | .poll result => s.poll result
  | .run => if s.call main = .out then s.runStep else none

def eventLoop (A V : Type) {T : Type} [DecidableEq A] [DecidableEq T] (main : T) :
    Machine (CEventLoop A T V) (LoopMove A T V) (LoopSeen T V) := ⟨CEventLoop.step main⟩

end Model

section Drain
variable {A T V : Type} [DecidableEq A] [DecidableEq T] {s s' : CMpscQueue A T V}
  {out : QueueSeen T V} {front : A} {chain hand : List (Queued A T V)}

theorem step_drain (h : s.Chained front chain) (hc : s.Consuming front chain hand)
    (hst : s.drain = some (s', out)) :
    ∃ front' chain' hand', s'.Chained front' chain' ∧ s'.Consuming front' chain' hand' ∧
      Effect s chain hand chain' hand' out := by
  unfold CMpscQueue.drain at hst
  split at hst
  · exact step_queue h hc hst
  · exact step_consume h hc hst

/-- Draining moves no poster, puts nothing in, and is out of Dequeue once it has
found the queue empty. -/
theorem drain_frame (hst : s.drain = some (s', out)) :
    s'.producer = s.producer ∧ exchanges [out] = [] ∧ (out = .empty → s'.consumer = .out) := by
  unfold CMpscQueue.drain at hst
  cases hpc : s.consumer with
  | out =>
    simp only [CMpscQueue.step, hpc] at hst
    cases hst
    exact ⟨rfl, rfl, by simp⟩
  | called =>
    simp only [CMpscQueue.consume, hpc] at hst
    cases hst
    exact ⟨rfl, rfl, by simp⟩
  | loadedTail tail =>
    simp only [hpc] at hst
    obtain ⟨hproducer, hnone⟩ := consume_frame hst
    simp only [CMpscQueue.consume, hpc, Option.map_eq_some_iff] at hst
    obtain ⟨n, -, hst⟩ := hst
    refine ⟨hproducer, hnone, fun hempty => ?_⟩
    split at hst
    · cases hst
      rfl
    · cases hst
      cases hempty
  | loadedNext tail next =>
    simp only [hpc] at hst
    obtain ⟨hproducer, hnone⟩ := consume_frame hst
    simp only [CMpscQueue.consume, hpc, Option.map_eq_some_iff] at hst
    obtain ⟨n, -, hst⟩ := hst
    cases hst
    exact ⟨hproducer, hnone, by simp⟩
  | moved tail next output =>
    simp only [CMpscQueue.consume, hpc] at hst
    cases hst
    exact ⟨rfl, rfl, by simp⟩
  | stored tail output =>
    simp only [hpc] at hst
    obtain ⟨hproducer, hnone⟩ := consume_frame hst
    simp only [CMpscQueue.consume, hpc, Option.map_eq_some_iff] at hst
    obtain ⟨n, -, hst⟩ := hst
    cases hst
    exact ⟨hproducer, hnone, by simp⟩

theorem drain_goesOn (h : s.Chained front chain) (hc : s.Consuming front chain hand) :
    s.drain.isSome = true := by
  unfold CMpscQueue.drain
  split
  · rename_i hpc
    simp [CMpscQueue.step, hpc]
  · rename_i hpc
    exact (queue_goesOn h hc).2 hpc

end Drain

end TgeCore.Threading
