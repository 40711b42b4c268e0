import Mathlib.Data.List.Nodup
import TgeCore.Library.Machine
import TgeCore.Library.Signals
import TgeCore.Threading.PollSockets

namespace TgeCore.Threading
open Library

/-- The events that Wait waits for: the wake signal, the one of the sockets and the watched ones. -/
inductive Handle where
  | null
  | wake
  | socket
  | event (native : UInt64)
deriving DecidableEq

def maximumWaitObjects : Nat := 64

def numOwnHandles : Nat := 2

def socketEventIndex : Nat := 1

def maxEvents : Nat := maximumWaitObjects - numOwnHandles

/-- WaitForMultipleObjects waits without end for this many milliseconds. -/
def INFINITE : Nat := 0xFFFFFFFF

/-- The entries of CPoller. -/
structure CPoller where
  entries : List SPollerEntry := []
  distinct : (entries.map fun entry => entry.waitable.native).Nodup
  capped : entries.countP (fun entry => entry.waitable.kind = .event) ≤ maxEvents

namespace CPoller

def empty : CPoller where
  entries := []
  distinct := List.nodup_nil
  capped := Nat.zero_le _

def isWatched (p : CPoller) (native : UInt64) : Bool :=
  p.entries.any fun entry => entry.waitable.native = native

def numEvents (p : CPoller) : Nat := p.entries.countP fun entry => entry.waitable.kind = .event

/-- Whether Add takes a waitable. `selects` is whether WSAEventSelect succeeds. -/
def isAdded (p : CPoller) (waitable : SWaitable) (selects : Bool) : Bool :=
  if p.isWatched waitable.native then false
  else
    match waitable.kind with
    | .socket => selects
    | .event => p.numEvents < maxEvents

theorem isWatched_eq_false {p : CPoller} {native : UInt64} (h : p.isWatched native = false) :
    ∀ entry ∈ p.entries, entry.waitable.native ≠ native := by simpa [isWatched] using h

theorem isAdded_eq_true {p : CPoller} {waitable : SWaitable} {selects : Bool} (h : p.isAdded waitable selects = true) :
    p.isWatched waitable.native = false ∧ (waitable.kind = .event → p.numEvents < maxEvents) := by
  unfold isAdded at h
  split at h
  · cases h
  · rename_i hnew
    refine ⟨by simpa using hnew, fun hkind => ?_⟩
    rw [hkind] at h
    exact of_decide_eq_true h

/-- Add. -/
def add (p : CPoller) (waitable : SWaitable) (key : UInt64) (selects : Bool) : Option CPoller :=
  if h : p.isAdded waitable selects = true then
    some
      { entries := p.entries ++ [⟨waitable, key⟩]
        distinct := by
          rw [List.map_append]
          refine List.nodup_append.mpr ⟨p.distinct, List.pairwise_singleton _ _, fun a ha b hb => ?_⟩
          obtain ⟨entry, hentry, rfl⟩ := List.mem_map.mp ha
          rw [List.mem_singleton.mp hb]
          exact isWatched_eq_false (isAdded_eq_true h).1 entry hentry
        capped := by
          have hroom := (isAdded_eq_true h).2
          rw [List.countP_append]
          unfold numEvents at hroom
          by_cases hkind : waitable.kind = .event
          · simpa [hkind, Nat.succ_le_iff] using hroom hkind
          · simpa [hkind] using p.capped }
  else none

/-- Remove, of a waitable that is watched. -/
def remove (p : CPoller) (native : UInt64) : CPoller where
  entries := p.entries.eraseP fun entry => entry.waitable.native = native
  distinct := p.distinct.sublist (List.eraseP_sublist.map _)
  capped := Nat.le_trans List.eraseP_sublist.countP_le p.capped

theorem entries_of_add {p p' : CPoller} {waitable : SWaitable} {key : UInt64} {selects : Bool}
    (h : p.add waitable key selects = some p') : p'.entries = p.entries ++ [⟨waitable, key⟩] := by
  unfold add at h
  split at h
  · cases h
    rfl
  · cases h

end CPoller

/-- The handles that Wait gives to WaitForMultipleObjects, and the keys of the watched events among them. -/
structure WaitHandles where
  handles : List Handle := [.wake, .socket] ++ List.replicate maxEvents .null
  keys : List UInt64 := List.replicate maximumWaitObjects 0
  numHandles : Nat := numOwnHandles

/-- One turn of the loop that collects them. None where it would write past the end of an array. -/
def WaitHandles.add (w : WaitHandles) (entry : SPollerEntry) : Option WaitHandles :=
  if entry.waitable.kind = .event then do
    let handles ← writeAt w.handles w.numHandles (.event entry.waitable.native)
    let keys ← writeAt w.keys w.numHandles entry.key
    pure { handles, keys, numHandles := w.numHandles + 1 }
  else some w

def waitHandles (entries : List SPollerEntry) : Option WaitHandles := entries.foldlM WaitHandles.add {}

/-- The handles that are waited for. -/
def WaitHandles.waited (w : WaitHandles) : List Handle := w.handles.take w.numHandles

def toTimeoutMs (timeout : Option Nat) : Nat :=
  match timeout with
  | some count => min count (INFINITE - 1)
  | none => INFINITE

/-- Where the loop's thread is: outside of Wait, in PollSockets with the sockets that are left and the
answers of this chunk, in CollectSignalledEvents, in WaitForMultipleObjects, or past it. -/
inductive WaitAt where
  | out
  | polling (again : Bool) (left : List SPollerEntry) (polls : List (SPollerEntry × Bool))
  | collecting (left : List SPollerEntry)
  | waiting (waited : WaitHandles)
  | returning

/-- CPoller on Windows with the sockets and events that it watches. A socket is readable while it has data,
a connection to accept, an error or an end. It sets its event when it becomes readable, and again
only after a read from it. -/
structure PollerState where
  poller : CPoller := CPoller.empty
  events : Signals Handle
  readable : UInt64 → Bool
  recorded : UInt64 → Bool := fun _ => false
  wait : WaitAt := .out
  timeout : Option Nat := none
  readyKeys : List UInt64 := []
  isWaiting : Bool := true

/-- What others do: a socket becomes readable or is read from, an event is set or reset, Wake is called. What the
loop's thread does: Add, Remove, and Wait in its steps. -/
inductive PollerMove where
  | arrive (socket : UInt64)
  | receive (socket : UInt64) (isMore : Bool)
  | setEvent (native : UInt64)
  | resetEvent (native : UInt64)
  | wake
  | add (waitable : SWaitable) (key : UInt64) (selects : Bool)
  | remove (native : UInt64)
  | wait (timeout : Option Nat) (resets : Bool)
  | poll
  | answer (isPolled : Bool)
  | collect
  | wakeUp
  | timeOut
  | failWait
  | leave

/-- What can be told of a step: the native handle that was found ready, or what Wait returned. -/
inductive PollerSeen where
  | nothing
  | ready (native : UInt64)
  | returned (isWaiting : Bool) (readyKeys : List UInt64)
deriving DecidableEq

def Handle.seen : Handle → PollerSeen
  | .event native => .ready native
  | _ => .nothing

namespace PollerState

def isSocketWatched (s : PollerState) (native : UInt64) : Bool :=
  s.poller.entries.any fun entry => entry.waitable.native = native && entry.waitable.kind = .socket

/-- The event of the sockets is set for one that is watched, unless that has been done since the last read. -/
def signal (s : PollerState) (socket : UInt64) : PollerState :=
  if s.isSocketWatched socket && !s.recorded socket then
    { s with events := s.events.set .socket, recorded := Function.update s.recorded socket true }
  else s

def arrive (s : PollerState) (socket : UInt64) : PollerState :=
  { s with readable := Function.update s.readable socket true }.signal socket

/-- A read makes the socket signal again, at once if there is more to read. -/
def receive (s : PollerState) (socket : UInt64) (isMore : Bool) : PollerState :=
  let isReadable := s.readable socket && isMore
  let read := { s with
    readable := Function.update s.readable socket isReadable
    recorded := Function.update s.recorded socket false }
  if isReadable then read.signal socket else read

/-- Add. A socket that is selected while it is readable signals at once. -/
def add (s : PollerState) (waitable : SWaitable) (key : UInt64) (selects : Bool) : PollerState :=
  match s.poller.add waitable key selects with
  | some poller =>
    let added := { s with poller }
    match waitable.kind with
    | .socket =>
      let selected := { added with recorded := Function.update s.recorded waitable.native false }
      if s.readable waitable.native then selected.signal waitable.native else selected
    | .event => added
  | none => s

/-- Wait up to its first poll. -/
def beginWait (s : PollerState) (timeout : Option Nat) (resets : Bool) : PollerState :=
  let begun := { s with timeout, readyKeys := [] }
  if resets then
    { begun with events := s.events.reset .socket, isWaiting := true, wait := .polling false (sockets s.poller.entries) [] }
  else { begun with isWaiting := false, wait := .returning }

/-- Where Wait goes from the end of a PollSockets. -/
def polled (s : PollerState) (again : Bool) : PollerState :=
  { s with wait := if again then .returning else .collecting s.poller.entries }

/-- The next socket of a chunk is polled. -/
def poll (s : PollerState) : Option (PollerState × PollerSeen) :=
  match s.wait with
  | .polling again left polls =>
    match left with
    | [] => if polls = [] then some (s.polled again, .nothing) else none
    | entry :: left =>
      if polls.length < maxSocketsPerPoll then
        let isReady := s.readable entry.waitable.native
        some ({ s with wait := .polling again left (polls ++ [(entry, isReady)]) },
          if isReady then .ready entry.waitable.native else .nothing)
      else none
  | _ => none

/-- PollChunk returns, over a full chunk or over what is left. -/
def answer (s : PollerState) (isPolled : Bool) : Option (PollerState × PollerSeen) :=
  match s.wait with
  | .polling again left polls =>
    if polls ≠ [] ∧ (polls.length = maxSocketsPerPoll ∨ left = []) then
      if isPolled then
        let ready := (polls.filter Prod.snd).map fun poll => poll.1.key
        let answered := { s with readyKeys := s.readyKeys ++ ready }
        some (if left = [] then answered.polled again else { answered with wait := .polling again left [] }, .nothing)
      else some ({ s with isWaiting := false }.polled again, .nothing)
    else none
  | _ => none

/-- The next turn of CollectSignalledEvents, and past it what Wait does before it waits. -/
def collect (s : PollerState) : Option (PollerState × PollerSeen) :=
  match s.wait with
  | .collecting [] =>
    if s.isWaiting = true ∧ s.readyKeys = [] then
      (waitHandles s.poller.entries).map fun waited => ({ s with wait := .waiting waited }, .nothing)
    else some ({ s with wait := .returning }, .nothing)
  | .collecting (entry :: left) =>
    let handle := Handle.event entry.waitable.native
    if entry.waitable.kind = .event ∧ s.events.isSet handle = true then
      some ({ s with events := s.events.seen handle, readyKeys := s.readyKeys ++ [entry.key], wait := .collecting left },
        .ready entry.waitable.native)
    else some ({ s with wait := .collecting left }, .nothing)
  | _ => none

/-- WaitForMultipleObjects returns for the first of its handles that is set. -/
def wakeUp (s : PollerState) : Option (PollerState × PollerSeen) :=
  match s.wait with
  | .waiting waited => do
    let signalled ← s.events.firstSet waited.waited
    let handle ← waited.waited[signalled]?
    let s := { s with events := s.events.seen handle, wait := .returning }
    if signalled = socketEventIndex then
      some ({ s with wait := .polling true (sockets s.poller.entries) [] }, .nothing)
    else if numOwnHandles ≤ signalled ∧ signalled < waited.numHandles then do
      let key ← waited.keys[signalled]?
      some ({ s with readyKeys := s.readyKeys ++ [key] }, handle.seen)
    else some (s, .nothing)
  | _ => none

def step (s : PollerState) : PollerMove → Option (PollerState × PollerSeen)
  | .arrive socket => some (s.arrive socket, .nothing)
  | .receive socket isMore => some (s.receive socket isMore, .nothing)
  | .setEvent native => some ({ s with events := s.events.set (.event native) }, .nothing)
  | .resetEvent native => some ({ s with events := s.events.reset (.event native) }, .nothing)
  | .wake => some ({ s with events := s.events.set .wake }, .nothing)
  | .add waitable key selects =>
    match s.wait with
    | .out => some (s.add waitable key selects, .nothing)
    | _ => none
  | .remove native =>
    match s.wait with
    | .out => some ({ s with poller := s.poller.remove native }, .nothing)
    | _ => none
  | .wait timeout resets =>
    match s.wait with
    | .out => some (s.beginWait timeout resets, .nothing)
    | _ => none
  | .poll => s.poll
  | .answer isPolled => s.answer isPolled
  | .collect => s.collect
  | .wakeUp => s.wakeUp
  | .timeOut =>
    match s.wait with
    | .waiting _ => if toTimeoutMs s.timeout < INFINITE then some ({ s with wait := .returning }, .nothing) else none
    | _ => none
  | .failWait =>
    match s.wait with
    | .waiting _ => some ({ s with isWaiting := false, wait := .returning }, .nothing)
    | _ => none
  | .leave =>
    match s.wait with
    | .returning => some ({ s with wait := .out }, .returned s.isWaiting s.readyKeys)
    | _ => none

/-- The poller's own events are not set at first. The one of the sockets does not reset itself in a wait. -/
def ownEvents (isSet resetsItself : UInt64 → Bool) : Signals Handle where
  isSet := fun
    | .event native => isSet native
    | _ => false
  resetsItself := fun
    | .event native => resetsItself native
    | .wake => true
    | _ => false

/-- Initialize, with the events and the sockets there are as they are then. -/
def start (isSet resetsItself readable : UInt64 → Bool) : PollerState :=
  { events := ownEvents isSet resetsItself, readable }

end PollerState

def pollerMachine : Machine PollerState PollerMove PollerSeen := ⟨PollerState.step⟩

end TgeCore.Threading
