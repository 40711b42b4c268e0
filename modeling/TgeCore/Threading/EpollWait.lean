import Mathlib.Data.List.Nodup
import TgeCore.Library.Machine
import TgeCore.Threading.TimerRuns

namespace TgeCore.Threading
open Library

def wakeKey : UInt64 := 0xFFFFFFFFFFFFFFFF

def maxEventsPerWait : Nat := 32

/-- What epoll keeps of a watched descriptor: the data it was added with. -/
structure EpollEntry where
  descriptor : Int32
  key : UInt64
deriving DecidableEq

/-- The descriptor that Add and Remove cast a waitable to. -/
def SWaitable.descriptor (waitable : SWaitable) : Int32 := waitable.native.toUInt32.toInt32

/-- Where the loop's thread is: outside of Wait, in epoll_wait, or past it with the events that are left to handle. -/
inductive EpollAt where
  | out
  | waiting (timeoutMs : Int)
  | handling (isWaiting : Bool) (events : List EpollEntry)

/-- CPoller on Linux with what it watches. Which of the readable descriptors a wait gets to see is up to epoll. -/
structure EpollState where
  wakeDescriptor : Int32
  interest : List EpollEntry := []
  readable : Int32 → Bool
  wait : EpollAt := .out
  readyKeys : List UInt64 := []

/-- What others do: a descriptor becomes readable or is drained, Wake is called. What the loop's thread does: Add,
Remove, and Wait in its steps, the events that epoll_wait gives with it. -/
inductive EpollMove where
  | arrive (descriptor : Int32)
  | drain (descriptor : Int32)
  | wake
  | add (waitable : SWaitable) (key : UInt64) (adds : Bool)
  | remove (waitable : SWaitable)
  | wait (timeout : Option Nat)
  | report (events : List EpollEntry)
  | timeOut
  | interrupt
  | fail
  | handle
  | leave

inductive EpollSeen where
  | nothing
  | returned (isWaiting : Bool) (readyKeys : List UInt64)
deriving DecidableEq

namespace EpollState

def isReady (s : EpollState) (entry : EpollEntry) : Bool := s.readable entry.descriptor

def arrive (s : EpollState) (descriptor : Int32) : EpollState :=
  { s with readable := Function.update s.readable descriptor true }

def drain (s : EpollState) (descriptor : Int32) : EpollState :=
  { s with readable := Function.update s.readable descriptor false }

/-- Add. `adds` is whether epoll_ctl succeeds for a descriptor that is not watched; one that is watched it rejects. -/
def add (s : EpollState) (waitable : SWaitable) (key : UInt64) (adds : Bool) : EpollState :=
  let entry : EpollEntry := ⟨waitable.descriptor, key⟩
  if adds && !s.interest.any (fun other => other.descriptor = waitable.descriptor) then
    { s with interest := s.interest ++ [entry] }
  else s

def remove (s : EpollState) (waitable : SWaitable) : EpollState :=
  { s with interest := s.interest.filter fun entry => entry.descriptor ≠ waitable.descriptor }

/-- The watched descriptors that are readable. -/
def ready (s : EpollState) : List EpollEntry := s.interest.filter s.isReady

/-- What epoll_wait may report: some of the readable descriptors, each once and no more than the array has room for, and
all of them unless the array is full. -/
def canReport (s : EpollState) (events : List EpollEntry) : Bool :=
  events ≠ [] ∧ events.Nodup ∧ events ⊆ s.ready ∧ events.length ≤ maxEventsPerWait ∧
    (events.length = maxEventsPerWait ∨ s.ready ⊆ events)

/-- Past epoll_wait. -/
def past (s : EpollState) (isWaiting : Bool) (events : List EpollEntry) : EpollState :=
  { s with wait := .handling isWaiting events, readyKeys := [] }

/-- The next turn of Wait's loop over the events. A read of the wake signal resets it. -/
def handle (s : EpollState) (isWaiting : Bool) (event : EpollEntry) (events : List EpollEntry) : EpollState :=
  if event.key = wakeKey then { s.drain s.wakeDescriptor with wait := .handling isWaiting events }
  else { s with wait := .handling isWaiting events, readyKeys := s.readyKeys ++ [event.key] }

def step (s : EpollState) : EpollMove → Option (EpollState × EpollSeen)
  | .arrive descriptor => some (s.arrive descriptor, .nothing)
  | .drain descriptor => some (s.drain descriptor, .nothing)
  | .wake => some (s.arrive s.wakeDescriptor, .nothing)
  | .add waitable key adds =>
    match s.wait with
    | .out => some (s.add waitable key adds, .nothing)
    | _ => none
  | .remove waitable =>
    match s.wait with
    | .out => some (s.remove waitable, .nothing)
    | _ => none
  | .wait timeout =>
    match s.wait with
    | .out => some ({ s with wait := .waiting (toEpollTimeoutMs timeout) }, .nothing)
    | _ => none
  | .report events =>
    match s.wait with
    | .waiting _ => if s.canReport events then some (s.past true events, .nothing) else none
    | _ => none
  | .timeOut =>
    match s.wait with
    | .waiting timeoutMs => if s.ready = [] ∧ 0 ≤ timeoutMs then some (s.past true [], .nothing) else none
    | _ => none
  | .interrupt =>
    match s.wait with
    | .waiting _ => if s.ready = [] then some (s.past true [], .nothing) else none
    | _ => none
  | .fail =>
    match s.wait with
    | .waiting _ => some (s.past false [], .nothing)
    | _ => none
  | .handle =>
    match s.wait with
    | .handling isWaiting (event :: events) => some (s.handle isWaiting event events, .nothing)
    | _ => none
  | .leave =>
    match s.wait with
    | .handling isWaiting [] => some ({ s with wait := .out }, .returned isWaiting s.readyKeys)
    | _ => none

/-- Initialize, with the descriptors there are as they are then: the wake signal is watched like the others. -/
def initializeWith (wakeDescriptor : Int32) (readable : Int32 → Bool) : EpollState :=
  { wakeDescriptor
    interest := [⟨wakeDescriptor, wakeKey⟩]
    readable := Function.update readable wakeDescriptor false }

end EpollState

def epollMachine : Machine EpollState EpollMove EpollSeen := ⟨EpollState.step⟩

end TgeCore.Threading
