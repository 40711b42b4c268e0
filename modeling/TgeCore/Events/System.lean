import TgeCore.Library.Machine
import Mathlib.Logic.Function.Basic

namespace TgeCore.Events
open Library

abbrev EventHandle := UInt64
abbrev EventTypeId := UInt32

/-- What a shared pointer to a handler entry points to. -/
structure SHandler (H : Type) where
  handle : EventHandle
  handler : H
  alive : Bool := true
deriving Repr

/-- Shared pointers to entries are their positions in the order of creation. -/
abbrev SHandlerList := List Nat

structure SEventSlot where
  handlers : SHandlerList := []
  snapshot : Option SHandlerList := none
  numDead : Nat := 0
  dirty : Bool := false
deriving Repr

structure SSubscription where
  type : EventTypeId
  entry : Nat
deriving Repr

/-- CSystem's members under `m_mutex`, and the entries its shared pointers share. -/
structure CSystem (H : Type) where
  entries : List (SHandler H) := []
  events : List SEventSlot := []
  subscriptions : EventHandle → Option SSubscription := fun _ => none
  nextHandle : EventHandle := 1

variable {H P : Type}

def CSystem.alive (s : CSystem H) (entry : Nat) : Bool :=
  s.entries[entry]?.any SHandler.alive

/-- std::erase_if over the entries that are no longer alive. -/
def CSystem.eraseDead (s : CSystem H) (handlers : SHandlerList) : SHandlerList :=
  handlers.filter s.alive

/-- `m_events.resize(type + 1)` where the type lies past the end. -/
def CSystem.resized (s : CSystem H) (type : EventTypeId) : List SEventSlot :=
  if type.toNat ≥ s.events.length then
    s.events ++ List.replicate (type.toNat + 1 - s.events.length) ({} : SEventSlot)
  else s.events

def CSystem.subscribeErased (s : CSystem H) (type : EventTypeId) (handler : H) :
    CSystem H × EventHandle :=
  let handle := s.nextHandle
  let entry := s.entries.length
  ({ entries := s.entries ++ [{ handle, handler }]
     events := (s.resized type).modify type.toNat (fun slot =>
       { slot with handlers := slot.handlers ++ [entry], dirty := true })
     subscriptions := Function.update s.subscriptions handle (some { type, entry })
     nextHandle := handle + 1 }, handle)

def CSystem.unsubscribe (s : CSystem H) (handle : EventHandle) : CSystem H :=
  match s.subscriptions handle with
  | none => s
  | some subscription =>
    let s := { s with
      entries := s.entries.modify subscription.entry (fun entry => { entry with alive := false }) }
    { s with
      events := s.events.modify subscription.type.toNat (fun slot =>
        let slot := { slot with numDead := slot.numDead + 1, dirty := true }
        -- Compacted here only when the dead outnumber the living.
        if slot.numDead * 2 > slot.handlers.length then
          { slot with handlers := s.eraseDead slot.handlers, numDead := 0 }
        else slot)
      subscriptions := Function.update s.subscriptions handle none }

def CSystem.getSnapshot (s : CSystem H) (type : EventTypeId) : CSystem H × Option SHandlerList :=
  match s.events[type.toNat]? with
  | none => (s, none)
  | some slot =>
    if slot.dirty then
      let handlers := s.eraseDead slot.handlers
      let slot : SEventSlot := { handlers, snapshot := some handlers, numDead := 0, dirty := false }
      ({ s with events := s.events.set type.toNat slot }, slot.snapshot)
    else (s, slot.snapshot)

/-- An EmitErased that has its snapshot: the entries still to visit. -/
structure Dispatch (P : Type) where
  rest : SHandlerList
  payload : P

/-- The system and the emits in progress on the emitting thread, innermost first. -/
structure Session (H P : Type) where
  system : CSystem H := {}
  dispatches : List (Dispatch P) := []

/-- What a caller may do, from outside or from inside a handler. `next` lets the
innermost emit go on: to its next living handler, or back to its caller. -/
inductive Op (H P : Type) where
  | subscribe (type : EventTypeId) (handler : H)
  | unsubscribe (handle : EventHandle)
  | emit (type : EventTypeId) (payload : P)
  | next
deriving DecidableEq

inductive Out (H P : Type) where
  | subscribed (handle : EventHandle)
  | unsubscribed
  | emitting
  | ran (handler : H) (payload : P)
  | emitted
deriving DecidableEq

/-- The loop of EmitErased up to the next living entry. -/
def CSystem.nextAlive (s : CSystem H) : SHandlerList → Option (H × SHandlerList)
  | [] => none
  | entry :: rest =>
    match s.entries[entry]? with
    | some found => if found.alive then some (found.handler, rest) else s.nextAlive rest
    | none => s.nextAlive rest

def Session.step (s : Session H P) : Op H P → Option (Session H P × Out H P)
  | .subscribe type handler =>
    let subscribed := s.system.subscribeErased type handler
    some ({ s with system := subscribed.1 }, .subscribed subscribed.2)
  | .unsubscribe handle => some ({ s with system := s.system.unsubscribe handle }, .unsubscribed)
  | .emit type payload =>
    let found := s.system.getSnapshot type
    some (⟨found.1, ⟨found.2.getD [], payload⟩ :: s.dispatches⟩, .emitting)
  | .next =>
    match s.dispatches with
    | [] => none
    | dispatch :: outer =>
      match s.system.nextAlive dispatch.rest with
      | some (handler, rest) =>
        some ({ s with dispatches := { dispatch with rest } :: outer }, .ran handler dispatch.payload)
      | none => some ({ s with dispatches := outer }, .emitted)

def sessions (H P : Type) : Machine (Session H P) (Op H P) (Out H P) := ⟨Session.step⟩

end TgeCore.Events
