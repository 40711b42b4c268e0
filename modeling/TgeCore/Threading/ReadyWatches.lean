import Mathlib.Data.List.Nodup
import TgeCore.Library.Machine

namespace TgeCore.Threading
open Library

structure SEventLoopWatch (W C : Type) where
  id : UInt64
  waitable : W
  onReadable : C

/-- A timer of the loop, under the 64-bit id that it was given. -/
structure LoopTimer (Time C : Type) where
  id : UInt64
  when : Time
  callback : C

/-- Where the loop's thread is: in a post, a timer or a wait, before the next of the ready
keys, or in a watch's callback with the keys that are left. -/
inductive ReadyAt where
  | elsewhere
  | turning (rest : List UInt64)
  | calling (rest : List UInt64)

/-- The watches and timers of SEventLoopState. `added` are the keys that the poller was
given; the one of a waitable that was closed too early it may report after its Remove. -/
structure CWatchLoop (W C Time : Type) where
  watches : List (SEventLoopWatch W C) := []
  timers : List (LoopTimer Time C) := []
  nextId : UInt64 := 0
  added : List UInt64 := []
  at' : ReadyAt := .elsewhere

namespace CWatchLoop

/-- The wait returns with some keys; the pass comes to its next key; a callback of it
returns; the callback, or a post or a timer, makes a call. -/
inductive Move (W C Time : Type) where
  | wait (readyKeys : List UInt64)
  | turn
  | back
  | watch (waitable : W) (onReadable : C) (isAdded : Bool)
  | unwatch (watch : UInt64)
  | scheduleAt (when : Time) (callback : C)
  | cancelTimer (timer : UInt64)

inductive Seen (W C : Type) where
  | nothing
  | began (readyKeys : List UInt64)
  | ran (key : UInt64) (callback : C)
  | skipped (key : UInt64)
  | ended
  | watched (id : UInt64) (waitable : W) (callback : C)
  | unwatched (id : UInt64)
  | scheduled (id : UInt64)

section Model
variable {W C Time : Type}

def findWatch (s : CWatchLoop W C Time) (id : UInt64) : Option (SEventLoopWatch W C) :=
  s.watches.find? fun entry => entry.id = id

/-- Watch. The poller may fail to add the waitable. -/
def watch (s : CWatchLoop W C Time) (waitable : W) (onReadable : C) (isAdded : Bool) :
    CWatchLoop W C Time × Seen W C :=
  if isAdded then
    ({ s with
      nextId := s.nextId + 1
      watches := s.watches ++ [⟨s.nextId, waitable, onReadable⟩]
      added := s.added ++ [s.nextId] }, .watched s.nextId waitable onReadable)
  else (s, .nothing)

def unwatch (s : CWatchLoop W C Time) (watch : UInt64) : CWatchLoop W C Time × Seen W C :=
  match s.findWatch watch with
  | some _ => ({ s with watches := s.watches.eraseP fun entry => entry.id = watch }, .unwatched watch)
  | none => (s, .nothing)

def scheduleAt (s : CWatchLoop W C Time) (when : Time) (callback : C) : CWatchLoop W C Time × Seen W C :=
  ({ s with nextId := s.nextId + 1, timers := s.timers ++ [⟨s.nextId, when, callback⟩] }, .scheduled s.nextId)

def cancelTimer (s : CWatchLoop W C Time) (timer : UInt64) : CWatchLoop W C Time × Seen W C :=
  ({ s with timers := s.timers.filter fun entry => entry.id ≠ timer }, .nothing)

/-- One round of RunReadyWatches. -/
def turn (s : CWatchLoop W C Time) : List UInt64 → CWatchLoop W C Time × Seen W C
  | [] => ({ s with at' := .elsewhere }, .ended)
  | key :: rest =>
    match s.findWatch key with
    | some found => ({ s with at' := .calling rest }, .ran key found.onReadable)
    | none => ({ s with at' := .turning rest }, .skipped key)

/-- Calls are made on the loop's thread, so not while RunReadyWatches looks a key up. -/
def whileCalling (s : CWatchLoop W C Time) (next : CWatchLoop W C Time × Seen W C) :
    Option (CWatchLoop W C Time × Seen W C) :=
  match s.at' with
  | .turning _ => none
  | _ => some next

def step (s : CWatchLoop W C Time) : Move W C Time → Option (CWatchLoop W C Time × Seen W C)
  | .wait readyKeys =>
    match s.at' with
    | .elsewhere =>
      if readyKeys ⊆ s.added then some ({ s with at' := .turning readyKeys }, .began readyKeys)
      else none
    | _ => none
  | .turn =>
    match s.at' with
    | .turning rest => some (s.turn rest)
    | _ => none
  | .back =>
    match s.at' with
    | .calling rest => some ({ s with at' := .turning rest }, .nothing)
    | _ => none
  | .watch waitable onReadable isAdded => s.whileCalling (s.watch waitable onReadable isAdded)
  | .unwatch watch => s.whileCalling (s.unwatch watch)
  | .scheduleAt when callback => s.whileCalling (s.scheduleAt when callback)
  | .cancelTimer timer => s.whileCalling (s.cancelTimer timer)

end Model

end CWatchLoop

def watchLoop (W C Time : Type) :
    Machine (CWatchLoop W C Time) (CWatchLoop.Move W C Time) (CWatchLoop.Seen W C) := ⟨CWatchLoop.step⟩

end TgeCore.Threading
