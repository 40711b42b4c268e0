import TgeCore.Library.Holders
import TgeCore.Net.StreamSocket

namespace TgeCore.Net
open Library Threading

/-- INVALID_SOCKET on Windows, a descriptor of -1 on Linux. -/
def NoSocket : UInt64 := 0xFFFFFFFFFFFFFFFF

/-- CStreamSocket, CStreamListener and CUdpSocket. -/
inductive SocketKind where
  | stream
  | listener
  | udp
deriving DecidableEq

/-- What the system has of an open socket. A child process would get one that is inheritable; one that reports resets
fails a receive when a datagram before it did not arrive. -/
structure OpenSocket where
  isDatagram : Bool
  isNonBlocking : Bool
  isInheritable : Bool
  isBound : Bool := false
  isListening : Bool := false
  reportsNetReset : Bool
deriving DecidableEq

/-- The system call that a call on an object makes next, with the socket it has in hand. -/
inductive SocketStage where
  | idle
  | opening
  | openNonBlocking (socket : UInt64)
  | bind (socket : UInt64)
  | listen (socket : UInt64)
  | turnOffReports (socket : UInt64)
  | accept (listener : UInt64)
  | acceptUninherited (socket : UInt64)
  | acceptNonBlocking (socket : UInt64)
  | abort (socket : UInt64) (result : Except ErrorCode Bool)
  | setNonBlocking (isNonBlocking : Bool)
  | close

/-- An object with the call on it. `isBlocking` is what the owner has made of the socket. -/
structure SocketObject where
  kind : SocketKind
  m_socket : UInt64 := NoSocket
  isBlocking : Bool := false
  stage : SocketStage := .idle

/-- The sockets that are open, by their handles, and the objects. -/
structure SocketObjects where
  sockets : UInt64 → Option OpenSocket := fun _ => none
  objects : List SocketObject := []

/-- How a system call ends. -/
inductive SocketOutcome where
  | socket (socket : UInt64)
  | done
  | failed (error : Nat)
deriving DecidableEq

/-- An object is made; a call on one begins, for Accept with the listener; the call makes its next system call. -/
inductive ObjectMove where
  | make (kind : SocketKind)
  | initializeAt (i : Nat)
  | acceptInto (i listener : Nat)
  | setBlocking (i : Nat)
  | terminate (i : Nat)
  | act (i : Nat) (outcome : SocketOutcome)

/-- What a call returns. A fault is a system call that sets up or closes a handle that is not open. -/
inductive ObjectSeen where
  | nothing
  | returned (i : Nat) (result : Except ErrorCode Bool)
  | fault (i : Nat)

namespace SocketObject

def isIdle (o : SocketObject) : Bool :=
  match o.stage with
  | .idle => true
  | _ => false

/-- The call is over, and what is in hand is the object's. -/
def finish (o : SocketObject) (socket : UInt64) : SocketObject :=
  { o with m_socket := socket, isBlocking := false, stage := .idle }

/-- Initialize once OpenSocket is through. -/
def opened (o : SocketObject) (socket : UInt64) : SocketObject :=
  match o.kind with
  | .stream => o.finish socket
  | .listener | .udp => { o with stage := .bind socket }

/-- And once the socket is bound. -/
def bound (p : Platform) (o : SocketObject) (socket : UInt64) : SocketObject :=
  match o.kind, p with
  | .listener, _ => { o with stage := .listen socket }
  | .udp, .windows => { o with stage := .turnOffReports socket }
  | _, _ => o.finish socket

/-- The handle that the object has, or that the call on it has in hand. -/
def holds (o : SocketObject) : Option UInt64 :=
  match o.stage with
  | .idle | .setNonBlocking _ | .close => if o.m_socket = NoSocket then none else some o.m_socket
  | .opening | .accept _ => none
  | .openNonBlocking socket | .bind socket | .listen socket | .turnOffReports socket
  | .acceptUninherited socket | .acceptNonBlocking socket | .abort socket _ => some socket

end SocketObject

/-- A socket as the system makes it. On Linux it is asked for as it should be, on Windows only some of that can be. -/
def newSocket (p : Platform) (isDatagram : Bool) : OpenSocket where
  isDatagram
  isNonBlocking := p = .linux
  isInheritable := false
  reportsNetReset := isDatagram && p = .windows

/-- A connection as the system makes it. -/
def newConnection (p : Platform) : OpenSocket where
  isDatagram := false
  isNonBlocking := p = .linux
  isInheritable := p = .windows
  isBound := true
  reportsNetReset := false

namespace SocketObjects

/-- The object takes its next state. -/
def put (s : SocketObjects) (i : Nat) (o : SocketObject) (seen : ObjectSeen) : SocketObjects × ObjectSeen :=
  ({ s with objects := s.objects.set i o }, seen)

/-- The system opens a socket. -/
def add (s : SocketObjects) (socket : UInt64) (known : OpenSocket) (next : SocketObjects × ObjectSeen) :
    SocketObjects × ObjectSeen :=
  ({ next.1 with sockets := Function.update s.sockets socket (some known) }, next.2)

/-- A call about an open socket. -/
def change (s : SocketObjects) (i : Nat) (socket : UInt64) (f : OpenSocket → Option OpenSocket)
    (next : SocketObjects × ObjectSeen) : SocketObjects × ObjectSeen :=
  match s.sockets socket with
  | none => (s, .fault i)
  | some known => ({ next.1 with sockets := Function.update s.sockets socket (f known) }, next.2)

/-- What is seen of a call that leaves the object in this state: it goes on, or it is over and has worked. -/
def goes (i : Nat) (o : SocketObject) : ObjectSeen := if o.isIdle then .returned i (.ok true) else .nothing

/-- Accept's result where there is no connection: that there is none yet is no error. -/
def acceptFailed (p : Platform) (error : ErrorCode) : Except ErrorCode Bool :=
  if error.is p .operationWouldBlock then .ok false else .error error

/-- A system call in a call on an object that gives a new socket, and what the code does up to the next one. -/
def actSocket (p : Platform) (s : SocketObjects) (i : Nat) (o : SocketObject) (socket : UInt64) :
    Option (SocketObjects × ObjectSeen) :=
  if socket ≠ NoSocket ∧ s.sockets socket = none then
    match o.stage with
    | .opening =>
      let next := if p = .linux then o.opened socket else { o with stage := .openNonBlocking socket }
      let known := newSocket p (o.kind = .udp)
      some (s.add socket known (s.put i next (goes i next)))
    | .accept listener =>
      if (s.sockets listener).any OpenSocket.isListening = true then
        let next := if p = .linux then o.finish socket else { o with stage := .acceptUninherited socket }
        some (s.add socket (newConnection p) (s.put i next (goes i next)))
      else none
    | _ => none
  else none

/-- One that works on the socket in hand. -/
def actDone (p : Platform) (s : SocketObjects) (i : Nat) (o : SocketObject) : Option (SocketObjects × ObjectSeen) :=
  match o.stage with
  | .openNonBlocking socket =>
    let next := o.opened socket
    some (s.change i socket (fun known => some { known with isNonBlocking := true }) (s.put i next (goes i next)))
  | .bind socket =>
    let next := o.bound p socket
    some (s.change i socket (fun known => some { known with isBound := true }) (s.put i next (goes i next)))
  | .listen socket =>
    let next := o.finish socket
    some (s.change i socket (fun known => some { known with isListening := true }) (s.put i next (goes i next)))
  | .turnOffReports socket =>
    let next := o.finish socket
    some (s.change i socket (fun known => some { known with reportsNetReset := false }) (s.put i next (goes i next)))
  | .acceptUninherited socket =>
    let next := { o with stage := .acceptNonBlocking socket }
    some (s.change i socket (fun known => some { known with isInheritable := false }) (s.put i next (goes i next)))
  | .acceptNonBlocking socket =>
    let next := o.finish socket
    some (s.change i socket (fun known => some { known with isNonBlocking := true }) (s.put i next (goes i next)))
  | .abort socket result =>
    let next := { o with stage := .idle }
    some (s.change i socket (fun _ => none) (s.put i next (.returned i result)))
  | .setNonBlocking isNonBlocking =>
    let next := { o with stage := .idle, isBlocking := !isNonBlocking }
    some (s.change i o.m_socket (fun known => some { known with isNonBlocking }) (s.put i next (goes i next)))
  | .close =>
    let next := { o with m_socket := NoSocket, stage := .idle }
    some (s.change i o.m_socket (fun _ => none) (s.put i next (goes i next)))
  | .idle | .opening | .accept _ => none

/-- One that fails. Closing is not asked whether it did. -/
def actFailed (p : Platform) (s : SocketObjects) (i : Nat) (o : SocketObject) (error : ErrorCode) :
    Option (SocketObjects × ObjectSeen) :=
  match o.stage with
  | .opening | .setNonBlocking _ => some (s.put i { o with stage := .idle } (.returned i (.error error)))
  | .accept _ => some (s.put i { o with stage := .idle } (.returned i (acceptFailed p error)))
  | .openNonBlocking socket | .bind socket | .listen socket | .turnOffReports socket =>
    some (s.put i { o with stage := .abort socket (.error error) } .nothing)
  | .acceptUninherited socket | .acceptNonBlocking socket =>
    some (s.put i { o with stage := .abort socket (acceptFailed p error) } .nothing)
  | .idle | .abort _ _ | .close => none

/-- Initialize and Accept are called as their assertions ask, and no object is in two calls at once. -/
def step (p : Platform) (s : SocketObjects) : ObjectMove → Option (SocketObjects × ObjectSeen)
  | .make kind => some ({ s with objects := s.objects ++ [{ kind }] }, .nothing)
  | .initializeAt i =>
    s.objects[i]?.bind fun o =>
      if o.isIdle = true ∧ o.m_socket = NoSocket then some (s.put i { o with stage := .opening } .nothing) else none
  | .acceptInto i listener =>
    s.objects[i]?.bind fun o => s.objects[listener]?.bind fun l =>
      if o.isIdle = true ∧ o.m_socket = NoSocket ∧ o.kind = .stream ∧ l.kind = .listener then
        some (s.put i { o with stage := .accept l.m_socket } .nothing)
      else none
  | .setBlocking i =>
    s.objects[i]?.bind fun o =>
      if o.isIdle = true ∧ o.m_socket ≠ NoSocket ∧ o.kind = .stream then
        some (s.put i { o with stage := .setNonBlocking false } .nothing)
      else none
  | .terminate i =>
    s.objects[i]?.bind fun o =>
      if o.isIdle = true then
        -- CloseSocket leaves alone what is no socket
        if o.m_socket = NoSocket then some (s, .returned i (.ok true))
        else some (s.put i { o with stage := .close } .nothing)
      else none
  | .act i outcome =>
    s.objects[i]?.bind fun o =>
      match outcome with
      | .socket socket => s.actSocket p i o socket
      | .done => s.actDone p i o
      | .failed error => s.actFailed p i o ⟨error, .system⟩

end SocketObjects

def objectMachine (p : Platform) : Machine SocketObjects ObjectMove ObjectSeen := ⟨SocketObjects.step p⟩

/-- A socket is as its object needs it. -/
structure OpenSocket.Ready (o : SocketObject) (known : OpenSocket) : Prop where
  datagram : known.isDatagram = decide (o.kind = .udp)
  blocking : known.isNonBlocking = !o.isBlocking
  kept : known.isInheritable = false
  bound : o.kind ≠ .stream → known.isBound = true
  listening : o.kind = .listener → known.isListening = true
  reports : o.kind = .udp → known.reportsNetReset = false

/-- The sockets that are open are those that the objects and the calls on them have, each of them once. Those of
objects that no call is on are ready, and only a connection that is just being accepted could get into a child. -/
structure SocketsOwned (p : Platform) (s : SocketObjects) (seen : List ObjectSeen) : Prop where
  there : ∀ o ∈ s.objects, ∀ socket, o.holds = some socket → (s.sockets socket).isSome = true
  owned : ∀ socket known, s.sockets socket = some known → ∃ (i : Nat) (o : SocketObject),
    s.objects[i]? = some o ∧ o.holds = some socket ∧
      ∀ (j : Nat) (other : SocketObject), s.objects[j]? = some other → other.holds = some socket → j = i
  ready : ∀ o ∈ s.objects, o.isIdle = true → o.m_socket ≠ NoSocket →
    ∃ known, s.sockets o.m_socket = some known ∧ known.Ready o
  inherited : ∀ socket known, s.sockets socket = some known → known.isInheritable = true → p = .windows ∧
    ∃ o ∈ s.objects, o.kind = .stream ∧ (o.stage = .acceptUninherited socket ∨ ∃ result, o.stage = .abort socket result)
  noFault : ∀ i, .fault i ∉ seen

end TgeCore.Net
