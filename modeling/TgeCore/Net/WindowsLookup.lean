import TgeCore.Library.Holders
import TgeCore.Net.AddressLookup

namespace TgeCore.Net.OnWindows
open Library

def WSAEINPROGRESS : Int := 10036

def WSAHOST_NOT_FOUND : Int := 11001

/-- The lookup with what the system writes into it: the list it makes, and the status of the overlapped request once
that is complete. The entries of the list are kept to compare. -/
structure SNativeLookup where
  hEvent : Nat
  pResult : Option Nat := none
  isComplete : Bool := false
  overlapped : Option Int := none
  entries : List addrinfo := []

/-- What Poll and Terminate go by: NO_ERROR of one that was complete at once, or what GetAddrInfoExOverlappedResult
says, where none is WSAEINPROGRESS. -/
def SNativeLookup.status (lookup : SNativeLookup) : Option Int :=
  if lookup.isComplete then some 0 else lookup.overlapped

/-- CAddressLookup on Windows with all lookups there have been, none where the memory is freed, the address lists and
the events that are there, and the requests that the system still works on. -/
structure CAddressLookup where
  pLookup : Option Nat := none
  lookups : List (Option SNativeLookup) := []
  lists : Nat → Option (List addrinfo) := fun _ => none
  events : Nat → Option Unit := fun _ => none
  pending : Nat → Bool := fun _ => false

/-- What Start's calls to the system come to: CreateEventW fails; or there is an event, and GetAddrInfoExW fails, is
through with a list, or goes on. -/
inductive Started where
  | noEvent (error : Int)
  | failed (status : Int)
  | complete (event list : Nat) (entries : List addrinfo)
  | pending (event : Nat)

inductive LookupMove where
  | start (started : Started)
  | poll
  | terminate
  | answer (i : Nat) (status : Int) (list : Nat) (entries : List addrinfo)

/-- A fault is the use of a lookup, a list or an event that is not there. -/
inductive LookupSeen where
  | nothing
  | failed (status : Int)
  | polled (i : Nat) (result : Looked)
  | abandoned (i : Nat)
  | answered (i : Nat) (status : Int) (entries : List addrinfo)
  | fault

namespace CAddressLookup

/-- A list or an event of a number that is not in use. -/
def isFresh (s : CAddressLookup) : Started → Bool
  | .noEvent error => error ≠ 0
  | .failed status => status ≠ 0
  | .complete event list _ => (s.events event).isNone && (s.lists list).isNone
  | .pending event => (s.events event).isNone

def start (s : CAddressLookup) : Started → CAddressLookup × LookupSeen
  | .noEvent error => (s, .failed error)
  -- the event is closed again
  | .failed status => (s, .failed status)
  | .complete event list entries =>
    ({ s with
      pLookup := some s.lookups.length
      lookups := s.lookups ++ [some { hEvent := event, pResult := some list, isComplete := true, entries }]
      lists := Function.update s.lists list (some entries)
      events := Function.update s.events event (some ()) }, .answered s.lookups.length 0 entries)
  | .pending event =>
    ({ s with
      pLookup := some s.lookups.length
      lookups := s.lookups ++ [some { hEvent := event }]
      events := Function.update s.events event (some ())
      pending := Function.update s.pending s.lookups.length true }, .nothing)

def entriesOf (s : CAddressLookup) (list : Option Nat) : Option (List addrinfo) :=
  match list with
  | none => some []
  | some list => s.lists list

/-- None where the list is not there. -/
def takeFirstAddress (s : CAddressLookup) (lookup : SNativeLookup) (status : Int) : Option Looked :=
  if status = 0 then
    (s.entriesOf lookup.pResult).map fun entries => firstAddress entries (.error WSAHOST_NOT_FOUND)
  else some (.error status)

/-- Release frees the list, if there is one, and closes the event, and then the lookup's memory goes. -/
def release (s : CAddressLookup) (i : Nat) (lookup : SNativeLookup) (seen : LookupSeen) : CAddressLookup × LookupSeen :=
  if (s.entriesOf lookup.pResult).isSome = true ∧ (s.events lookup.hEvent).isSome = true then
    ({ s with
      pLookup := none
      lookups := s.lookups.set i none
      lists := fun list => if lookup.pResult = some list then none else s.lists list
      events := Function.update s.events lookup.hEvent none }, seen)
  else (s, .fault)

def poll (s : CAddressLookup) (i : Nat) : CAddressLookup × LookupSeen :=
  match s.lookups[i]? with
  | some (some lookup) =>
    match lookup.status with
    | none => (s, .nothing)
    | some status =>
      match s.takeFirstAddress lookup status with
      | none => (s, .fault)
      | some result => s.release i lookup (.polled i result)
  | _ => (s, .fault)

/-- One that is pending is left to the system, which writes into it later. -/
def terminate (s : CAddressLookup) (i : Nat) : CAddressLookup × LookupSeen :=
  match s.lookups[i]? with
  | some (some lookup) =>
    match lookup.status with
    | none => ({ s with pLookup := none }, .abandoned i)
    | some _ => s.release i lookup .nothing
  | _ => (s, .fault)

/-- The system completes a request, also one that was cancelled. -/
def answer (s : CAddressLookup) (i : Nat) (status : Int) (list : Nat) (entries : List addrinfo) :
    CAddressLookup × LookupSeen :=
  match s.lookups[i]? with
  | some (some lookup) =>
    let made := if status = 0 then some list else none
    ({ s with
      lookups := s.lookups.set i (some { lookup with overlapped := some status, pResult := made, entries })
      lists := fun other => if made = some other then some entries else s.lists other
      pending := Function.update s.pending i false }, .answered i status entries)
  | _ => (s, .fault)

/-- Start and Poll are called as their assertions ask. -/
def step (s : CAddressLookup) : LookupMove → Option (CAddressLookup × LookupSeen)
  | .start started => if s.pLookup = none ∧ s.isFresh started = true then some (s.start started) else none
  | .poll => s.pLookup.map s.poll
  | .terminate =>
    match s.pLookup with
    | some i => some (s.terminate i)
    | none => some (s, .nothing)
  | .answer i status list entries =>
    if s.pending i = true ∧ status ≠ WSAEINPROGRESS ∧ (status = 0 → s.lists list = none) then
      some (s.answer i status list entries)
    else none

end CAddressLookup

def windowsLookups : Machine CAddressLookup LookupMove LookupSeen := ⟨CAddressLookup.step⟩

/-- What a Poll reports of an answer: its first IPv4 entry in host byte order. -/
def resultOf (status : Int) (entries : List addrinfo) : Looked :=
  if status = 0 then
    (entries.find? (·.ai_family = AF_INET)).elim (.error WSAHOST_NOT_FOUND) fun entry => .ok (ntohl entry.s_addr)
  else .error status

/-- Neither side uses what is not there. The lookups that are there are the running one and those that Terminate left
to the system before it had answered; the lists and the events are theirs, each of them once. A Poll reports what the
system has answered, and no lookup is reported twice. -/
structure LookupsKept (s : CAddressLookup) (seen : List LookupSeen) : Prop where
  noFault : .fault ∉ seen
  kept : ∀ (i : Nat) (lookup : SNativeLookup), s.lookups[i]? = some (some lookup) →
    s.pLookup = some i ∨ .abandoned i ∈ seen
  lists : ∀ list, (s.lists list).isSome = true ↔ ∃ (i : Nat) (lookup : SNativeLookup),
    s.lookups[i]? = some (some lookup) ∧ lookup.pResult = some list
  events : ∀ event, (s.events event).isSome = true ↔ ∃ (i : Nat) (lookup : SNativeLookup),
    s.lookups[i]? = some (some lookup) ∧ lookup.hEvent = event
  once : ∀ (i j : Nat) (lookup other : SNativeLookup), s.lookups[i]? = some (some lookup) →
    s.lookups[j]? = some (some other) →
      lookup.hEvent = other.hEvent ∨ lookup.pResult = other.pResult ∧ lookup.pResult ≠ none → i = j
  left : ∀ before i after, seen = before ++ .abandoned i :: after →
    ∀ status entries, .answered i status entries ∉ before
  told : ∀ i result, .polled i result ∈ seen → ∃ status entries,
    .answered i status entries ∈ seen ∧ result = resultOf status entries
  toldOnce : ∀ before i result after, seen = before ++ .polled i result :: after → ∀ other, .polled i other ∉ before

end TgeCore.Net.OnWindows
