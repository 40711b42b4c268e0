import TgeCore.Library.Machine
import TgeCore.Threading.TimerRuns

namespace TgeCore.Net
open Library Threading

inductive ErrorCategory where
  | system
  | generic
deriving DecidableEq

structure ErrorCode where
  value : Nat
  category : ErrorCategory := .system
deriving DecidableEq

inductive Errc where
  | operationWouldBlock
  | notConnected
deriving DecidableEq

/-- What the system calls a condition. -/
def Errc.system : Errc → Platform → Nat
  | .operationWouldBlock, .linux => 11
  | .operationWouldBlock, .windows => 10035
  | .notConnected, .linux => 107
  | .notConnected, .windows => 10057

/-- What the language's own category calls it. -/
def Errc.generic : Errc → Platform → Nat
  | .operationWouldBlock, .linux => 11
  | .operationWouldBlock, .windows => 140
  | .notConnected, .linux => 107
  | .notConnected, .windows => 126

def ErrorCode.is (p : Platform) (error : ErrorCode) (condition : Errc) : Bool :=
  match error.category with
  | .system => error.value = condition.system p
  | .generic => error.value = condition.generic p

def makeErrorCode (p : Platform) (condition : Errc) : ErrorCode := ⟨condition.generic p, .generic⟩

/-- EINPROGRESS, and WSAEWOULDBLOCK on Windows. -/
def inProgress : Platform → Nat
  | .linux => 115
  | .windows => 10035

/-- By the raw code: on Linux EAGAIN is a real failure of connect. -/
def isConnectInProgress (p : Platform) (error : ErrorCode) : Bool :=
  error.category = .system ∧ error.value = inProgress p

/-- What the system knows of a socket's connection. The error of a failed connect is pending until it is taken. -/
inductive Link where
  | fresh
  | connecting
  | connected
  | failed (error : Nat) (isPending : Bool)
deriving DecidableEq

/-- How far the owner's call has come: PollConnected up to its poll and up to its read of the error; Receive up to
its read of the data and then, after "not connected", up to its poll and up to its read of the error. -/
inductive CallAt where
  | idle
  | pollConnected
  | takeConnected
  | receive
  | settle (error : ErrorCode)
  | takeReceived (error : ErrorCode)
deriving DecidableEq

structure StreamSocket where
  link : Link := .fresh
  call : CallAt := .idle
deriving DecidableEq

/-- The network ends a connect well or badly. The owner calls Connect, once, and PollConnected or Receive, which
go on with what the system says: what connect fails with, the answers of the polls (none for one that fails), what
getsockopt fails with, and for a connection that was made also the error there is by then and what is received. -/
inductive SocketMove where
  | establish
  | refuse (error : Nat)
  | connect (failure : Option Nat)
  | pollConnected
  | receive
  | poll (isReady : Option Bool)
  | take (failure : Option Nat) (since : Nat)
  | recv (received : Except Nat Nat)

inductive SocketSeen where
  | nothing
  | connecting (failure : Option ErrorCode)
  | polled (isConnected : Except ErrorCode Bool)
  | received (received : Except ErrorCode Nat)

/-- An error that tells why there is no connection. -/
def isFailure (p : Platform) (error : Nat) : Bool :=
  error ≠ 0 && error ≠ Errc.operationWouldBlock.system p && error ≠ Errc.notConnected.system p

/-- What recv can say of a connection that stands or has stood. -/
def isReceived (p : Platform) : Except Nat Nat → Bool
  | .ok _ => true
  | .error error => error ≠ 0 && error ≠ Errc.notConnected.system p

namespace StreamSocket

/-- The answers that poll can give for a connection: one that failed counts as ready, one that is not there yet does
not. -/
def polls (s : StreamSocket) (isReady : Bool) : Bool :=
  match s.link with
  | .connecting => !isReady
  | .failed _ _ => isReady
  | _ => true

/-- getsockopt's SO_ERROR, which it clears. -/
def takeError (s : StreamSocket) (since : Nat) : StreamSocket × Nat :=
  match s.link with
  | .failed error true => ({ s with link := .failed error false }, error)
  | .connected => (s, since)
  | _ => (s, 0)

/-- TakePendingError. -/
def takePendingError (s : StreamSocket) (failure : Option Nat) (since : Nat) : StreamSocket × Option ErrorCode :=
  match failure with
  | none =>
    let (s, pending) := s.takeError since
    (s, if pending ≠ 0 then some ⟨pending, .system⟩ else none)
  | some error => (s, some ⟨error, .system⟩)

/-- recv. On Windows a socket that is not connected says just that, on Linux it says why. -/
def receiveBytes (p : Platform) (s : StreamSocket) (received : Except Nat Nat) : StreamSocket × Except Nat Nat :=
  match p, s.link with
  | .linux, .connecting => (s, .error (Errc.operationWouldBlock.system .linux))
  | .linux, .failed error true => ({ s with link := .failed error false }, .error error)
  | _, .connected => (s, received)
  | p, _ => (s, .error (Errc.notConnected.system p))

/-- Connect, with what connect fails with. -/
def connect (p : Platform) (s : StreamSocket) (failure : Option Nat) : StreamSocket × SocketSeen :=
  match failure with
  | none => ({ s with link := .connected }, .connecting none)
  | some error =>
    if isConnectInProgress p ⟨error, .system⟩ then ({ s with link := .connecting }, .connecting none)
    else ({ s with link := .failed error false }, .connecting (some ⟨error, .system⟩))

/-- PollConnected past its poll, with what TakePendingError gives. -/
def pollConnectedResult (pending : Option ErrorCode) : Except ErrorCode Bool :=
  match pending with
  | none => .ok true
  | some error => .error error

/-- Receive past its poll of a socket that is not connected. -/
def receiveResult (p : Platform) (error : ErrorCode) (isSettled : Bool) (pending : Option ErrorCode) : ErrorCode :=
  if !isSettled then makeErrorCode p .operationWouldBlock
  else
    match pending with
    | some pending => pending
    | none => error

def step (p : Platform) (s : StreamSocket) : SocketMove → Option (StreamSocket × SocketSeen)
  | .establish => if s.link = .connecting then some ({ s with link := .connected }, .nothing) else none
  | .refuse error =>
    if s.link = .connecting ∧ isFailure p error = true then some ({ s with link := .failed error true }, .nothing)
    else none
  | .connect failure =>
    if s.call = .idle ∧ s.link = .fresh ∧ ∀ error ∈ failure, error ≠ 0 then
      some (s.connect p failure)
    else none
  | .pollConnected => if s.call = .idle then some ({ s with call := .pollConnected }, .nothing) else none
  | .receive => if s.call = .idle then some ({ s with call := .receive }, .nothing) else none
  | .poll isReady =>
    if isReady.all s.polls = true then
      match s.call, isReady.getD false with
      | .pollConnected, true => some ({ s with call := .takeConnected }, .nothing)
      | .pollConnected, false => some ({ s with call := .idle }, .polled (.ok false))
      | .settle error, true => some ({ s with call := .takeReceived error }, .nothing)
      | .settle error, false => some ({ s with call := .idle }, .received (.error (receiveResult p error false none)))
      | _, _ => none
    else none
  | .take failure since =>
    if (∀ error ∈ failure, isFailure p error = true) ∧ (since = 0 ∨ isFailure p since = true) then
      let (taken, pending) := s.takePendingError failure since
      match s.call with
      | .takeConnected => some ({ taken with call := .idle }, .polled (pollConnectedResult pending))
      | .takeReceived error =>
        some ({ taken with call := .idle }, .received (.error (receiveResult p error true pending)))
      | _ => none
    else none
  | .recv received =>
    if s.call = .receive ∧ isReceived p received = true then
      match s.receiveBytes p received with
      | (s, .ok numBytes) => some ({ s with call := .idle }, .received (.ok numBytes))
      | (s, .error value) =>
        let error : ErrorCode := ⟨value, .system⟩
        if error.is p .notConnected then some ({ s with call := .settle error }, .nothing)
        else some ({ s with call := .idle }, .received (.error error))
    else none

end StreamSocket

def socketMachine (p : Platform) : Machine StreamSocket SocketMove SocketSeen := ⟨StreamSocket.step p⟩

end TgeCore.Net
