import TgeCore.Library.Calls
import TgeCore.Library.Cells

namespace TgeCore.Net
open Library

def AF_INET : Nat := 2

def EAI_NONAME : Int := -2

def EAI_INPROGRESS : Int := -100

def EAI_CANCELED : Int := -101

/-- An entry of an address list. The address stands in network byte order. -/
structure addrinfo where
  ai_family : Nat
  s_addr : UInt32
deriving DecidableEq

/-- On a little-endian machine. -/
def ntohl (address : UInt32) : UInt32 :=
  let second : UInt32 := 0xFF00
  (address <<< 24) ||| ((address &&& second) <<< 8) ||| ((address >>> 8) &&& second) ||| (address >>> 24)

/-- What a lookup comes to: an address or an error of the lookup's category. -/
abbrev Looked := Except Int UInt32

/-- The loop of TakeFirstAddress. -/
def firstAddress : List addrinfo → Looked → Looked
  | [], result => result
  | entry :: entries, .error status =>
    firstAddress entries (if entry.ai_family = AF_INET then .ok (ntohl entry.s_addr) else .error status)
  | _ :: _, .ok address => .ok address

/-- The entry that TakeFirstAddress takes is the first one of an IPv4 address. -/
theorem firstAddress_eq (entries : List addrinfo) (status : Int) :
    firstAddress entries (.error status) =
      ((entries.find? (·.ai_family = AF_INET)).elim (.error status) fun entry => .ok (ntohl entry.s_addr)) := by
  induction entries with
  | nil => rfl
  | cons entry entries ih =>
    by_cases hfamily : entry.ai_family = AF_INET
    · rw [firstAddress, if_pos hfamily, List.find?_cons_of_pos (by simpa using hfamily)]
      cases entries with
      | nil => rfl
      | cons other entries => rfl
    · rw [firstAddress, if_neg hfamily, List.find?_cons_of_neg (by simpa using hfamily), ih]

/-- The request in SNativeLookup: getaddrinfo's result so far, and the list it made. -/
structure SNativeLookup where
  host : String
  status : Int := EAI_INPROGRESS
  ar_result : Option Nat := none
deriving DecidableEq

/-- Where the resolver is with a request that it has not answered. -/
inductive Resolving where
  | queued
  | running
deriving DecidableEq

/-- CAddressLookup on Linux with the resolver and the memory both work on. `isSound` as long as nothing was touched
that had been freed. -/
structure CAddressLookup where
  pLookup : Option Nat := none
  lookups : Cells SNativeLookup := Cells.empty
  lists : Cells (List addrinfo) := Cells.empty
  resolving : Nat → Option Resolving := fun _ => none
  isSound : Bool := true

/-- The owner calls Start, with what getaddrinfo_a returns for it, Poll or Terminate; the resolver takes a
request up and answers it. -/
inductive LookupMove where
  | start (host : String) (status : Int)
  | poll
  | terminate
  | takeUp (request : Nat)
  | answer (request : Nat) (status : Int) (entries : List addrinfo)

inductive LookupSeen where
  | nothing
  | started (request : Nat)
  | failed (status : Int)
  | polled (request : Nat) (result : Looked)
  | abandoned (request : Nat)
  | answered (request : Nat) (status : Int) (entries : List addrinfo)

namespace CAddressLookup

/-- freeaddrinfo. -/
def freeaddrinfo (s : CAddressLookup) (list : Option Nat) : CAddressLookup :=
  match list with
  | none => s
  | some list => { s with lists := s.lists.free list, isSound := s.isSound && (s.lists.cell list).isSome }

/-- The memory of a lookup goes, and the owner has none any more. -/
def reset (s : CAddressLookup) (request : Nat) : CAddressLookup :=
  { s with pLookup := none, lookups := s.lookups.free request }

/-- The entries of a list that has not been freed. -/
def entriesOf (s : CAddressLookup) (list : Option Nat) : Option (List addrinfo) :=
  match list with
  | none => some []
  | some list => s.lists.cell list

def start (s : CAddressLookup) (host : String) (status : Int) : CAddressLookup × LookupSeen :=
  if status = 0 then
    ({ s with
      pLookup := some s.lookups.next
      lookups := s.lookups.alloc { host }
      resolving := Function.update s.resolving s.lookups.next (some .queued) }, .started s.lookups.next)
  else (s, .failed status)

/-- TakeFirstAddress, of a request that is answered. -/
def takeFirstAddress (s : CAddressLookup) (request : Nat) (lookup : SNativeLookup) : CAddressLookup × Looked :=
  if lookup.status = 0 then
    let taken := { s.freeaddrinfo lookup.ar_result with
      lookups := s.lookups.write request { lookup with ar_result := none } }
    match s.entriesOf lookup.ar_result with
    | some entries => (taken, firstAddress entries (.error EAI_NONAME))
    | none => ({ taken with isSound := false }, .error EAI_NONAME)
  else (s, .error lookup.status)

def poll (s : CAddressLookup) (request : Nat) : CAddressLookup × LookupSeen :=
  match s.lookups.cell request with
  | none => ({ s with isSound := false }, .nothing)
  | some lookup =>
    if lookup.status = EAI_INPROGRESS then (s, .nothing)
    else
      let taken := s.takeFirstAddress request lookup
      (taken.1.reset request, .polled request taken.2)

/-- What gai_cancel makes of a request that it takes back. -/
def cancel (s : CAddressLookup) (request : Nat) (lookup : SNativeLookup) : CAddressLookup :=
  { s with
    resolving := Function.update s.resolving request none
    lookups := s.lookups.write request { lookup with status := EAI_CANCELED } }

/-- Terminate, by what gai_cancel finds: a request that is not begun it takes back, one that is being worked on it
cannot, and one that is answered it leaves. -/
def terminate (s : CAddressLookup) (request : Nat) : CAddressLookup × LookupSeen :=
  match s.lookups.cell request with
  | none => ({ s with isSound := false }, .nothing)
  | some lookup =>
    match s.resolving request with
    | some .running => ({ s with pLookup := none }, .abandoned request)
    | some .queued => (((s.cancel request lookup).freeaddrinfo lookup.ar_result).reset request, .nothing)
    | none => ((s.freeaddrinfo lookup.ar_result).reset request, .nothing)

/-- The resolver writes its answer into the request, with a list of its own if it succeeds. -/
def answer (s : CAddressLookup) (request : Nat) (status : Int) (entries : List addrinfo) : CAddressLookup :=
  let done := { s with resolving := Function.update s.resolving request none }
  match s.lookups.cell request with
  | none => { done with isSound := false }
  | some lookup =>
    if status = 0 then
      { done with
        lists := s.lists.alloc entries
        lookups := s.lookups.write request { lookup with status, ar_result := some s.lists.next } }
    else { done with lookups := s.lookups.write request { lookup with status } }

/-- Start and Poll are called as their assertions ask. -/
def step (s : CAddressLookup) : LookupMove → Option (CAddressLookup × LookupSeen)
  | .start host status => if s.pLookup = none then some (s.start host status) else none
  | .poll => s.pLookup.map s.poll
  | .terminate =>
    match s.pLookup with
    | some request => some (s.terminate request)
    | none => some (s, .nothing)
  | .takeUp request =>
    if s.resolving request = some .queued then
      some ({ s with resolving := Function.update s.resolving request (some .running) }, .nothing)
    else none
  | .answer request status entries =>
    if s.resolving request = some .running ∧ status ≠ EAI_INPROGRESS then
      some (s.answer request status entries, .answered request status entries)
    else none

/-- Before the first Start, with no request in the resolver. -/
def init : CAddressLookup := {}

end CAddressLookup

def lookupMachine : Machine CAddressLookup LookupMove LookupSeen := ⟨CAddressLookup.step⟩

namespace CAddressLookup
variable {s t : CAddressLookup} {seen : List LookupSeen} {out : LookupSeen} {request : Nat} {lookup : SNativeLookup}

/-- The memory of the owner's lookup, of the abandoned ones and of their lists is what there is, and the resolver has
only requests that are still there. -/
structure Safe (seen : List LookupSeen) (s : CAddressLookup) : Prop where
  sound : s.isSound = true
  owned : ∀ request, s.pLookup = some request → ∃ lookup, s.lookups.cell request = some lookup
  resolving : ∀ request at', s.resolving request = some at' →
    ∃ lookup, s.lookups.cell request = some lookup ∧ lookup.status = EAI_INPROGRESS ∧ lookup.ar_result = none
  answered : ∀ request lookup, s.lookups.cell request = some lookup → s.resolving request = none →
    lookup.status ≠ EAI_INPROGRESS
  listless : ∀ request lookup, s.lookups.cell request = some lookup → lookup.status ≠ 0 → lookup.ar_result = none
  held : ∀ request lookup list, s.lookups.cell request = some lookup → lookup.ar_result = some list →
    ∃ entries, s.lists.cell list = some entries
  holder : ∀ list entries, s.lists.cell list = some entries →
    ∃ request lookup, s.lookups.cell request = some lookup ∧ lookup.ar_result = some list
  sole : ∀ request other lookup lookup' list, s.lookups.cell request = some lookup →
    s.lookups.cell other = some lookup' → lookup.ar_result = some list → lookup'.ar_result = some list → request = other
  kept : ∀ request lookup, s.lookups.cell request = some lookup →
    s.pLookup = some request ∨ .abandoned request ∈ seen

theorem freeaddrinfo_frame (s : CAddressLookup) (list : Option Nat) : (s.freeaddrinfo list).pLookup = s.pLookup ∧
    (s.freeaddrinfo list).lookups = s.lookups ∧ (s.freeaddrinfo list).resolving = s.resolving := by
  unfold freeaddrinfo
  cases list with
  | none => exact ⟨rfl, rfl, rfl⟩
  | some list => exact ⟨rfl, rfl, rfl⟩

theorem freeaddrinfo_lists {list : Option Nat} {other : Nat} {entries : List addrinfo} :
    (s.freeaddrinfo list).lists.cell other = some entries ↔ list ≠ some other ∧ s.lists.cell other = some entries := by
  unfold freeaddrinfo
  cases list with
  | none => simp
  | some list =>
    rw [Cells.free_eq_some]
    simp [eq_comm]

theorem freeaddrinfo_isSound (hsound : s.isSound = true) {list : Option Nat}
    (hlive : ∀ other, list = some other → ∃ entries, s.lists.cell other = some entries) :
    (s.freeaddrinfo list).isSound = true := by
  unfold freeaddrinfo
  cases list with
  | none => exact hsound
  | some list =>
    obtain ⟨entries, hentries⟩ := hlive list rfl
    simp [hsound, hentries]

/-- A request that the resolver has no more goes, with its list. -/
theorem Safe.reset (h : Safe seen s) (hown : s.pLookup = some request) (hlookup : s.lookups.cell request = some lookup)
    {t : CAddressLookup} (hidle : t.resolving request = none)
    (hrest : ∀ other, other ≠ request → t.resolving other = s.resolving other ∧ t.lookups.cell other = s.lookups.cell other)
    (hlists : ∀ other entries, t.lists.cell other = some entries ↔
      lookup.ar_result ≠ some other ∧ s.lists.cell other = some entries)
    (hsound : t.isSound = true) (out : LookupSeen) : Safe (seen ++ [out]) (t.reset request) := by
  have hsome {other : Nat} {lookup' : SNativeLookup} :
      (t.reset request).lookups.cell other = some lookup' ↔ other ≠ request ∧ s.lookups.cell other = some lookup' := by
    refine Cells.free_eq_some.trans (and_congr_right fun hne => ?_)
    rw [(hrest other hne).2]
  constructor
  case sound => exact hsound
  case owned => simp [CAddressLookup.reset]
  case resolving =>
    intro other at' hother
    change t.resolving other = some at' at hother
    have hne : other ≠ request := by
      rintro rfl
      rw [hidle] at hother
      cases hother
    rw [(hrest other hne).1] at hother
    obtain ⟨lookup', hlookup', hopen⟩ := h.resolving other at' hother
    exact ⟨lookup', hsome.mpr ⟨hne, hlookup'⟩, hopen⟩
  case answered =>
    intro other lookup' hother hnone
    obtain ⟨hne, hother⟩ := hsome.mp hother
    exact h.answered other lookup' hother ((hrest other hne).1.symm.trans hnone)
  case listless =>
    intro other lookup' hother
    exact h.listless other lookup' (hsome.mp hother).2
  case held =>
    intro other lookup' list hother hlist
    obtain ⟨hne, hother⟩ := hsome.mp hother
    obtain ⟨entries, hentries⟩ := h.held other lookup' list hother hlist
    refine ⟨entries, (hlists list entries).mpr ⟨fun hmine => hne ?_, hentries⟩⟩
    exact h.sole other request lookup' lookup list hother hlookup hlist hmine
  case holder =>
    intro list entries hentries
    obtain ⟨hnot, hentries⟩ := (hlists list entries).mp hentries
    obtain ⟨other, lookup', hother, hlist⟩ := h.holder list entries hentries
    refine ⟨other, lookup', hsome.mpr ⟨fun hsame => hnot ?_, hother⟩, hlist⟩
    rw [hsame, hlookup, Option.some_inj] at hother
    rw [hother, hlist]
  case sole =>
    intro first second lookup' lookup'' list hfirst hsecond
    exact h.sole first second lookup' lookup'' list (hsome.mp hfirst).2 (hsome.mp hsecond).2
  case kept =>
    intro other lookup' hother
    obtain ⟨hne, hother⟩ := hsome.mp hother
    rcases h.kept other lookup' hother with howned | habandoned
    · exact absurd (Option.some.inj (howned.symm.trans hown)) hne
    · exact .inr (List.mem_append_left _ habandoned)

theorem Safe.told (h : Safe seen s) (out : LookupSeen) : Safe (seen ++ [out]) s :=
  { h with kept := fun request lookup hlookup => (h.kept request lookup hlookup).imp_right (List.mem_append_left _) }

theorem Safe.start (h : Safe seen s) (hnone : s.pLookup = none) (host : String) (status : Int) :
    Safe (seen ++ [(s.start host status).2]) (s.start host status).1 := by
  unfold CAddressLookup.start
  split
  · have hold {other : Nat} {lookup : SNativeLookup} (hother : s.lookups.cell other = some lookup) :
        other ≠ s.lookups.next := Nat.ne_of_lt (Cells.lt_next hother)
    constructor
    case sound => exact h.sound
    case owned =>
      intro request hrequest
      cases hrequest
      exact ⟨_, Cells.alloc_self ..⟩
    case resolving =>
      intro other at' hother
      by_cases hsame : other = s.lookups.next
      · exact ⟨{ host }, by rw [hsame, Cells.alloc_self], rfl, rfl⟩
      · dsimp only at hother
        rw [Function.update_of_ne hsame] at hother
        obtain ⟨lookup, hlookup, hrest⟩ := h.resolving other at' hother
        exact ⟨lookup, Cells.alloc_eq_some.mpr (.inr ⟨hsame, hlookup⟩), hrest⟩
    case answered =>
      intro other lookup hother hidle
      rcases Cells.alloc_eq_some.mp hother with ⟨hsame, -⟩ | ⟨hne, hbefore⟩
      · dsimp only at hidle
        rw [hsame, Function.update_self] at hidle
        cases hidle
      · dsimp only at hidle
        rw [Function.update_of_ne hne] at hidle
        exact h.answered other lookup hbefore hidle
    case listless =>
      intro other lookup hother hstatus
      rcases Cells.alloc_eq_some.mp hother with ⟨-, hnew⟩ | ⟨-, hbefore⟩
      · rw [← hnew]
      · exact h.listless other lookup hbefore hstatus
    case held =>
      intro other lookup list hother hlist
      rcases Cells.alloc_eq_some.mp hother with ⟨-, hnew⟩ | ⟨-, hbefore⟩
      · rw [← hnew] at hlist
        cases hlist
      · exact h.held other lookup list hbefore hlist
    case holder =>
      intro list entries hentries
      obtain ⟨other, lookup, hother, hlist⟩ := h.holder list entries hentries
      exact ⟨other, lookup, Cells.alloc_eq_some.mpr (.inr ⟨hold hother, hother⟩), hlist⟩
    case sole =>
      intro first second lookup lookup' list hfirst hsecond hlist hlist'
      rcases Cells.alloc_eq_some.mp hfirst with ⟨-, hnew⟩ | ⟨-, hbefore⟩
      · rw [← hnew] at hlist
        cases hlist
      · rcases Cells.alloc_eq_some.mp hsecond with ⟨-, hnew⟩ | ⟨-, hbefore'⟩
        · rw [← hnew] at hlist'
          cases hlist'
        · exact h.sole first second lookup lookup' list hbefore hbefore' hlist hlist'
    case kept =>
      intro other lookup hother
      rcases Cells.alloc_eq_some.mp hother with ⟨hsame, -⟩ | ⟨-, hbefore⟩
      · exact .inl (by rw [hsame])
      · rcases h.kept other lookup hbefore with howned | habandoned
        · rw [hnone] at howned
          cases howned
        · exact .inr (List.mem_append_left _ habandoned)
  · exact h.told _

theorem Safe.poll (h : Safe seen s) (hown : s.pLookup = some request) :
    Safe (seen ++ [(s.poll request).2]) (s.poll request).1 := by
  obtain ⟨lookup, hlookup⟩ := h.owned request hown
  unfold CAddressLookup.poll
  rw [hlookup]
  dsimp only
  split
  · exact h.told _
  · rename_i hdone
    have hidle : s.resolving request = none := by
      cases hat : s.resolving request with
      | none => rfl
      | some at' =>
        obtain ⟨lookup', hlookup', hstatus, -⟩ := h.resolving request at' hat
        rw [hlookup, Option.some_inj] at hlookup'
        exact absurd (hlookup' ▸ hstatus) hdone
    have hlive (list : Nat) (hlist : lookup.ar_result = some list) := h.held request lookup list hlookup hlist
    obtain ⟨-, -, hresolving⟩ := s.freeaddrinfo_frame lookup.ar_result
    unfold takeFirstAddress
    split
    · have hentries : ∃ entries, s.entriesOf lookup.ar_result = some entries := by
        unfold entriesOf
        cases hlist : lookup.ar_result with
        | none => exact ⟨[], rfl⟩
        | some list => exact hlive list hlist
      obtain ⟨entries, hentries⟩ := hentries
      rw [hentries]
      refine h.reset (t := { s.freeaddrinfo lookup.ar_result with
        lookups := s.lookups.write request { lookup with ar_result := none } }) hown hlookup
        ((congrFun hresolving request).trans hidle) (fun other hother => ?_) (fun other entries => freeaddrinfo_lists)
        (freeaddrinfo_isSound h.sound hlive) _
      exact ⟨congrFun hresolving other, Cells.write_of_ne hother _⟩
    · rename_i hstatus
      have hnoList : lookup.ar_result = none := h.listless request lookup hlookup hstatus
      exact h.reset hown hlookup hidle (fun _ _ => ⟨rfl, rfl⟩) (by simp [hnoList]) h.sound _

theorem Safe.terminate (h : Safe seen s) (hown : s.pLookup = some request) :
    Safe (seen ++ [(s.terminate request).2]) (s.terminate request).1 := by
  obtain ⟨lookup, hlookup⟩ := h.owned request hown
  have hlive (list : Nat) (hlist : lookup.ar_result = some list) := h.held request lookup list hlookup hlist
  unfold CAddressLookup.terminate
  rw [hlookup]
  cases hat : s.resolving request with
  | none =>
    obtain ⟨-, hlookups, hresolving⟩ := s.freeaddrinfo_frame lookup.ar_result
    refine h.reset hown hlookup ((congrFun hresolving request).trans hat) (fun other _ => ?_)
      (fun other entries => freeaddrinfo_lists) (freeaddrinfo_isSound h.sound hlive) _
    exact ⟨congrFun hresolving other, by rw [hlookups]⟩
  | some at' =>
    cases at' with
    | running =>
      have htold := h.told (.abandoned request)
      exact { htold with
        owned := by simp
        kept := fun other lookup' hother => by
          rcases htold.kept other lookup' hother with howned | habandoned
          · obtain rfl := Option.some.inj (hown.symm.trans howned)
            exact .inr (by simp)
          · exact .inr habandoned }
    | queued =>
      obtain ⟨-, hlookups, hresolving⟩ := (s.cancel request lookup).freeaddrinfo_frame lookup.ar_result
      refine h.reset (t := (s.cancel request lookup).freeaddrinfo lookup.ar_result) hown hlookup ?_ (fun other hother => ?_) (fun other entries => freeaddrinfo_lists)
        (freeaddrinfo_isSound (s := s.cancel request lookup) h.sound hlive) _
      · exact (congrFun hresolving request).trans (Function.update_self ..)
      · rw [hresolving, hlookups]
        exact ⟨Function.update_of_ne hother .., Cells.write_of_ne hother _⟩

theorem Safe.takeUp (h : Safe seen s) (hqueued : s.resolving request = some .queued) (out : LookupSeen) :
    Safe (seen ++ [out]) { s with resolving := Function.update s.resolving request (some .running) } := by
  have hsame (other : Nat) : Function.update s.resolving request (some .running) other = none ↔ s.resolving other = none := by
    by_cases hother : other = request
    · rw [hother, Function.update_self, hqueued]
      simp
    · rw [Function.update_of_ne hother]
  refine { h.told out with
    resolving := fun other at' hother => ?_
    answered := fun other lookup hother hidle => h.answered other lookup hother ((hsame other).mp hidle) }
  cases hbefore : s.resolving other with
  | none =>
    have hstill := (hsame other).mpr hbefore
    dsimp only at hother
    rw [hstill] at hother
    cases hother
  | some at'' => exact h.resolving other at'' hbefore

/-- The resolver's answer is written, and what list it has is a new one. -/
theorem Safe.written (h : Safe seen s) (hrunning : s.resolving request = some .running) {written : SNativeLookup}
    (hstatus : written.status ≠ EAI_INPROGRESS) (hlistless : written.status ≠ 0 → written.ar_result = none)
    {t : CAddressLookup} (howner : t.pLookup = s.pLookup) (hlookups : t.lookups = s.lookups.write request written)
    (hidle : t.resolving = Function.update s.resolving request none) (hsound : t.isSound = s.isSound)
    (hlists : ∀ list entries, s.lists.cell list = some entries → t.lists.cell list = some entries)
    (hholds : ∀ list entries, t.lists.cell list = some entries →
      s.lists.cell list = some entries ∨ written.ar_result = some list)
    (hnew : ∀ list, written.ar_result = some list →
      s.lists.cell list = none ∧ ∃ entries, t.lists.cell list = some entries)
    (out : LookupSeen) : Safe (seen ++ [out]) t := by
  obtain ⟨lookup, hlookup, -, hnoList⟩ := h.resolving request .running hrunning
  have hsome {other : Nat} {lookup' : SNativeLookup} : t.lookups.cell other = some lookup' ↔
      (other = request ∧ written = lookup') ∨ (other ≠ request ∧ s.lookups.cell other = some lookup') := by
    rw [hlookups]
    exact Cells.write_eq_some (Cells.lt_next hlookup)
  have hfresh {other : Nat} {lookup' : SNativeLookup} {list : Nat} (hbefore : s.lookups.cell other = some lookup')
      (hlist : lookup'.ar_result = some list) : written.ar_result ≠ some list := by
    intro hmine
    obtain ⟨entries, hentries⟩ := h.held other lookup' list hbefore hlist
    rw [(hnew list hmine).1] at hentries
    cases hentries
  constructor
  case sound => rw [hsound, h.sound]
  case owned =>
    intro other hother
    by_cases hsame : other = request
    · exact ⟨written, hsome.mpr (.inl ⟨hsame, rfl⟩)⟩
    · obtain ⟨lookup', hlookup'⟩ := h.owned other (howner ▸ hother)
      exact ⟨lookup', hsome.mpr (.inr ⟨hsame, hlookup'⟩)⟩
  case resolving =>
    intro other at' hother
    rw [hidle] at hother
    have hne : other ≠ request := by
      rintro rfl
      rw [Function.update_self] at hother
      cases hother
    rw [Function.update_of_ne hne] at hother
    obtain ⟨lookup', hlookup', hopen⟩ := h.resolving other at' hother
    exact ⟨lookup', hsome.mpr (.inr ⟨hne, hlookup'⟩), hopen⟩
  case answered =>
    intro other lookup' hother hnone
    rcases hsome.mp hother with ⟨-, rfl⟩ | ⟨hne, hbefore⟩
    · exact hstatus
    · rw [hidle, Function.update_of_ne hne] at hnone
      exact h.answered other lookup' hbefore hnone
  case listless =>
    intro other lookup' hother
    rcases hsome.mp hother with ⟨-, rfl⟩ | ⟨-, hbefore⟩
    · exact hlistless
    · exact h.listless other lookup' hbefore
  case held =>
    intro other lookup' list hother hlist
    rcases hsome.mp hother with ⟨-, rfl⟩ | ⟨-, hbefore⟩
    · exact (hnew list hlist).2
    · obtain ⟨entries, hentries⟩ := h.held other lookup' list hbefore hlist
      exact ⟨entries, hlists list entries hentries⟩
  case holder =>
    intro list entries hentries
    rcases hholds list entries hentries with hold | hmine
    · obtain ⟨other, lookup', hother, hlist⟩ := h.holder list entries hold
      have hne : other ≠ request := by
        rintro rfl
        rw [hlookup, Option.some_inj] at hother
        rw [← hother, hnoList] at hlist
        cases hlist
      exact ⟨other, lookup', hsome.mpr (.inr ⟨hne, hother⟩), hlist⟩
    · exact ⟨request, written, hsome.mpr (.inl ⟨rfl, rfl⟩), hmine⟩
  case sole =>
    intro first second lookup' lookup'' list hfirst hsecond hlist hlist'
    rcases hsome.mp hfirst with ⟨rfl, rfl⟩ | ⟨-, hbefore⟩
    · rcases hsome.mp hsecond with ⟨rfl, -⟩ | ⟨-, hbefore'⟩
      · rfl
      · exact absurd hlist (hfresh hbefore' hlist')
    · rcases hsome.mp hsecond with ⟨rfl, rfl⟩ | ⟨-, hbefore'⟩
      · exact absurd hlist' (hfresh hbefore hlist)
      · exact h.sole first second lookup' lookup'' list hbefore hbefore' hlist hlist'
  case kept =>
    intro other lookup' hother
    rw [howner]
    rcases hsome.mp hother with ⟨rfl, -⟩ | ⟨-, hbefore⟩
    · exact (h.kept other lookup hlookup).imp_right (List.mem_append_left _)
    · exact (h.kept other lookup' hbefore).imp_right (List.mem_append_left _)

theorem Safe.answer (h : Safe seen s) (hrunning : s.resolving request = some .running) {status : Int}
    (hstatus : status ≠ EAI_INPROGRESS) (entries : List addrinfo) (out : LookupSeen) :
    Safe (seen ++ [out]) (s.answer request status entries) := by
  obtain ⟨lookup, hlookup, -, hnoList⟩ := h.resolving request .running hrunning
  unfold CAddressLookup.answer
  rw [hlookup]
  dsimp only
  split
  · rename_i hdone
    refine h.written hrunning hstatus (fun hfailed => absurd hdone hfailed) (by rfl) (by rfl) (by rfl)
      (by rfl) ?_ ?_ ?_ out
    · intro list entries' hentries'
      exact Cells.alloc_eq_some.mpr (.inr ⟨Nat.ne_of_lt (Cells.lt_next hentries'), hentries'⟩)
    · intro list entries' hentries'
      rcases Cells.alloc_eq_some.mp hentries' with ⟨rfl, -⟩ | ⟨-, hbefore⟩
      · exact .inr rfl
      · exact .inl hbefore
    · intro list hlist
      obtain rfl := Option.some.inj hlist
      exact ⟨s.lists.fresh _ (Nat.le_refl _), entries, Cells.alloc_self ..⟩
  · have hnothing (list : Nat) (hlist : lookup.ar_result = some list) : False := by
      rw [hnoList] at hlist
      cases hlist
    exact h.written (t := { s with
        resolving := Function.update s.resolving request none
        lookups := s.lookups.write request { lookup with status } }) hrunning (by exact hstatus)
      (by exact fun _ => hnoList) rfl rfl rfl rfl (fun _ _ => id) (fun _ _ => .inl)
      (fun list hlist => (hnothing list hlist).elim) out

theorem Safe.step (h : Safe seen s) {m : LookupMove} (hst : s.step m = some (t, out)) : Safe (seen ++ [out]) t := by
  cases m with
  | start host status =>
    simp only [CAddressLookup.step] at hst
    split at hst
    · rename_i hnone
      have hnext := h.start hnone host status
      rw [Option.some.inj hst] at hnext
      exact hnext
    · cases hst
  | poll =>
    obtain ⟨request, hown, hst⟩ := Option.map_eq_some_iff.mp hst
    have hnext := h.poll hown
    rw [hst] at hnext
    exact hnext
  | terminate =>
    simp only [CAddressLookup.step] at hst
    split at hst
    · rename_i request hown
      have hnext := h.terminate hown
      rw [Option.some.inj hst] at hnext
      exact hnext
    · cases hst
      exact h.told _
  | takeUp request =>
    simp only [CAddressLookup.step] at hst
    split at hst
    · rename_i hqueued
      cases hst
      exact h.takeUp hqueued _
    · cases hst
  | answer request status entries =>
    simp only [CAddressLookup.step] at hst
    split at hst
    · rename_i hrunning
      cases hst
      exact h.answer hrunning.1 hrunning.2 entries _
    · cases hst

theorem safe_run {ms : List LookupMove} (hr : lookupMachine.run init ms = some (s, seen)) : Safe seen s := by
  have hkept := Machine.run_invariant (M := lookupMachine) (fun _ seen s => Safe seen s) [] [] ?_ ?_ hr
  · exact hkept
  · exact fun _ _ _ _ _ _ h hst => h.step hst
  · constructor
    case sound => rfl
    all_goals simp [init, Cells.empty]

/-- What the resolver works on it has taken up, and what it has answered it does not work on any more. -/
structure Taken (ms : List LookupMove) (s : CAddressLookup) : Prop where
  taken : ∀ request, s.resolving request = some .running → .takeUp request ∈ ms
  done : ∀ request status entries, .answer request status entries ∈ ms →
    s.resolving request = none ∧ request < s.lookups.next

/-- A step that makes the resolver work on nothing more. -/
theorem Taken.mono {ms : List LookupMove} {m : LookupMove} (h : Taken ms s)
    (hresolving : ∀ request, t.resolving request = s.resolving request ∨ t.resolving request = none)
    (hnext : t.lookups.next = s.lookups.next)
    (hanswer : ∀ request status entries, m = .answer request status entries →
      t.resolving request = none ∧ request < t.lookups.next) : Taken (ms ++ [m]) t where
  taken request hrunning := by
    rcases hresolving request with hsame | hnone
    · exact List.mem_append_left _ (h.taken request (hsame ▸ hrunning))
    · rw [hnone] at hrunning
      cases hrunning
  done request status entries hmem := by
    rcases List.mem_append.mp hmem with hold | hnew
    · obtain ⟨hidle, hlt⟩ := h.done request status entries hold
      refine ⟨?_, hnext ▸ hlt⟩
      rcases hresolving request with hsame | hnone
      · rw [hsame, hidle]
      · exact hnone
    · exact hanswer request status entries (List.mem_singleton.mp hnew).symm

theorem Taken.start {ms : List LookupMove} (h : Taken ms s) (host : String) (status : Int) :
    Taken (ms ++ [.start host status]) (s.start host status).1 := by
  unfold CAddressLookup.start
  split
  · constructor
    case taken =>
      intro request hrunning
      by_cases hsame : request = s.lookups.next
      · rw [hsame] at hrunning
        dsimp only at hrunning
        rw [Function.update_self] at hrunning
        cases hrunning
      · dsimp only at hrunning
        rw [Function.update_of_ne hsame] at hrunning
        exact List.mem_append_left _ (h.taken request hrunning)
    case done =>
      intro request status' entries hmem
      obtain ⟨hidle, hlt⟩ := h.done request status' entries (by simpa using hmem)
      refine ⟨?_, Nat.lt_succ_of_lt hlt⟩
      dsimp only
      rw [Function.update_of_ne (Nat.ne_of_lt hlt)]
      exact hidle
  · exact h.mono (fun _ => .inl rfl) rfl (by simp)

theorem takeFirstAddress_frame (s : CAddressLookup) (request : Nat) (lookup : SNativeLookup) :
    (s.takeFirstAddress request lookup).1.lookups.next = s.lookups.next ∧
      (s.takeFirstAddress request lookup).1.resolving = s.resolving := by
  have hfree := (s.freeaddrinfo_frame lookup.ar_result).2.2
  unfold takeFirstAddress
  split
  · split
    · exact ⟨rfl, hfree⟩
    · exact ⟨rfl, hfree⟩
  · exact ⟨rfl, rfl⟩

theorem poll_frame (s : CAddressLookup) (request : Nat) :
    (s.poll request).1.resolving = s.resolving ∧ (s.poll request).1.lookups.next = s.lookups.next := by
  unfold CAddressLookup.poll
  split
  · exact ⟨rfl, rfl⟩
  · rename_i lookup _
    split
    · exact ⟨rfl, rfl⟩
    · exact (s.takeFirstAddress_frame request lookup).symm

theorem terminate_frame (s : CAddressLookup) (request other : Nat) :
    ((s.terminate request).1.resolving other = s.resolving other ∨ (s.terminate request).1.resolving other = none) ∧
      (s.terminate request).1.lookups.next = s.lookups.next := by
  unfold CAddressLookup.terminate
  split
  · exact ⟨.inl rfl, rfl⟩
  · rename_i lookup _
    split
    · exact ⟨.inl rfl, rfl⟩
    · obtain ⟨-, hlookups, hresolving⟩ := (s.cancel request lookup).freeaddrinfo_frame lookup.ar_result
      refine ⟨?_, by rw [CAddressLookup.reset, hlookups]; rfl⟩
      have hat := congrFun hresolving other
      by_cases hsame : other = request
      · exact .inr (hat.trans (by rw [hsame]; exact Function.update_self ..))
      · exact .inl (hat.trans (Function.update_of_ne hsame ..))
    · obtain ⟨-, hlookups, hresolving⟩ := s.freeaddrinfo_frame lookup.ar_result
      exact ⟨.inl (congrFun hresolving other), by rw [CAddressLookup.reset, hlookups]; rfl⟩

/-- What an answer leaves as it was, and what it makes of its own request. -/
theorem answer_frame {lookup : SNativeLookup} (hlookup : s.lookups.cell request = some lookup) (status : Int)
    (entries : List addrinfo) : (s.answer request status entries).pLookup = s.pLookup ∧
      (s.answer request status entries).resolving = Function.update s.resolving request none ∧
      ∃ list, (s.answer request status entries).lookups =
        s.lookups.write request { lookup with status, ar_result := list } ∧
          (status = 0 → (s.answer request status entries).entriesOf list = some entries) := by
  unfold CAddressLookup.answer
  rw [hlookup]
  dsimp only
  split
  · exact ⟨rfl, rfl, some s.lists.next, rfl, fun _ => Cells.alloc_self ..⟩
  · rename_i hfailed
    exact ⟨rfl, rfl, lookup.ar_result, rfl, fun hdone => absurd hdone hfailed⟩

theorem Taken.takeUp {ms : List LookupMove} (h : Taken ms s) (hqueued : s.resolving request = some .queued) :
    Taken (ms ++ [.takeUp request])
      { s with resolving := Function.update s.resolving request (some .running) } where
  taken other hrunning := by
    by_cases hsame : other = request
    · exact List.mem_append_right _ (by simp [hsame])
    · dsimp only at hrunning
      rw [Function.update_of_ne hsame] at hrunning
      exact List.mem_append_left _ (h.taken other hrunning)
  done other status entries hmem := by
    obtain ⟨hidle, hlt⟩ := h.done other status entries (by simpa using hmem)
    refine ⟨?_, hlt⟩
    have hne : other ≠ request := by
      rintro rfl
      rw [hqueued] at hidle
      cases hidle
    exact (Function.update_of_ne hne ..).trans hidle

theorem Taken.step {ms : List LookupMove} {m : LookupMove} (h : Taken ms s) (hsafe : Safe seen s)
    (hst : s.step m = some (t, out)) : Taken (ms ++ [m]) t := by
  cases m with
  | start host status =>
    simp only [CAddressLookup.step] at hst
    split at hst
    · have hnext := h.start host status
      rw [Option.some.inj hst] at hnext
      exact hnext
    · cases hst
  | poll =>
    obtain ⟨request, -, hst⟩ := Option.map_eq_some_iff.mp hst
    obtain ⟨hresolving, hnext⟩ := s.poll_frame request
    rw [hst] at hresolving hnext
    exact h.mono (fun other => .inl (congrFun hresolving other)) hnext (by simp)
  | terminate =>
    simp only [CAddressLookup.step] at hst
    split at hst
    · rename_i request _
      have hframe := s.terminate_frame request
      rw [Option.some.inj hst] at hframe
      exact h.mono (fun other => (hframe other).1) (hframe request).2 (by simp)
    · cases hst
      exact h.mono (fun _ => .inl rfl) rfl (by simp)
  | takeUp request =>
    simp only [CAddressLookup.step] at hst
    split at hst
    · rename_i hqueued
      cases hst
      exact h.takeUp hqueued
    · cases hst
  | answer request status entries =>
    simp only [CAddressLookup.step] at hst
    split at hst
    · rename_i hrunning
      cases hst
      obtain ⟨lookup, hlookup, -⟩ := hsafe.resolving request .running hrunning.1
      obtain ⟨-, hresolving, list, hlookups, -⟩ := answer_frame hlookup status entries
      have hnext : (s.answer request status entries).lookups.next = s.lookups.next := by
        rw [hlookups]
        rfl
      refine h.mono (fun other => ?_) hnext fun other _ _ heq => ?_
      · rw [hresolving]
        by_cases hsame : other = request
        · exact .inr (by rw [hsame, Function.update_self])
        · exact .inl (Function.update_of_ne hsame ..)
      · cases heq
        rw [hresolving, hnext]
        exact ⟨Function.update_self .., Cells.lt_next hlookup⟩
    · cases hst

theorem taken_run {ms : List LookupMove} (hr : lookupMachine.run init ms = some (s, seen)) : Taken ms s := by
  have hkept := Machine.run_invariant (M := lookupMachine) (fun ms seen s => Safe seen s ∧ Taken ms s) [] [] ?_ ?_ hr
  · exact hkept.2
  · exact fun _ _ _ _ _ _ h hst => ⟨h.1.step hst, h.2.step h.1 hst⟩
  · exact ⟨@safe_run _ _ [] rfl, by simp [init], by simp⟩

/-- Terminate leaves only what the resolver works on. -/
theorem step_abandoned {m : LookupMove} (hst : s.step m = some (t, .abandoned request)) :
    s.resolving request = some .running := by
  cases m with
  | start host status =>
    simp only [CAddressLookup.step, CAddressLookup.start] at hst
    split at hst
    · split at hst
      · cases hst
      · cases hst
    · cases hst
  | poll =>
    obtain ⟨other, -, hst⟩ := Option.map_eq_some_iff.mp hst
    unfold CAddressLookup.poll at hst
    split at hst
    · cases hst
    · split at hst
      · cases hst
      · cases hst
  | terminate =>
    simp only [CAddressLookup.step] at hst
    split at hst
    · have hst := Option.some.inj hst
      unfold CAddressLookup.terminate at hst
      split at hst
      · cases hst
      · split at hst
        · rename_i hrunning
          cases hst
          exact hrunning
        · cases hst
        · cases hst
    · cases hst
  | takeUp other =>
    simp only [CAddressLookup.step] at hst
    split at hst
    · cases hst
    · cases hst
  | answer other status entries =>
    simp only [CAddressLookup.step] at hst
    split at hst
    · cases hst
    · cases hst

/-- What is allocated in a run, and who uses it. -/
structure ReleasesMemory (ms : List LookupMove) (seen : List LookupSeen) (s : CAddressLookup) : Prop where
  sound : s.isSound = true
  lookups : ∀ request lookup, s.lookups.cell request = some lookup →
    s.pLookup = some request ∨ .abandoned request ∈ seen
  /-- Terminate leaves a lookup to the resolver only between its taking it up and its answering it. -/
  left : ∀ before request after, seen = before ++ .abandoned request :: after →
    .takeUp request ∈ ms.take before.length ∧
      ∀ status entries, .answer request status entries ∉ ms.take before.length
  lists : ∀ list entries, s.lists.cell list = some entries → ∃ request lookup,
    s.lookups.cell request = some lookup ∧ lookup.ar_result = some list ∧ lookup.status = 0

/-- Neither side touches memory that is gone, and nothing is left but the running lookup, those that Terminate had to
leave to the resolver, and a list that one of these holds. -/
theorem lookups_release_memory {ms : List LookupMove} (hr : lookupMachine.run init ms = some (s, seen)) :
    ReleasesMemory ms seen s := by
  have h := safe_run hr
  refine ⟨h.sound, h.kept, fun before request after heq => ?_, fun list entries hentries => ?_⟩
  · rw [heq] at hr
    obtain ⟨m, u, u', hbefore, hst⟩ := Machine.run_at hr
    have hrunning := step_abandoned hst
    have htaken := taken_run hbefore
    refine ⟨htaken.taken request hrunning, fun status entries hmem => ?_⟩
    rw [(htaken.done request status entries hmem).1] at hrunning
    cases hrunning
  · obtain ⟨request, lookup, hlookup, hlist⟩ := h.holder list entries hentries
    refine ⟨request, lookup, hlookup, hlist, ?_⟩
    by_contra hfailed
    rw [h.listless request lookup hlookup hfailed] at hlist
    cases hlist

/-- One lookup is abandoned while it is resolved and answered after that, and a second one runs. -/
theorem lookups_release_memory_abandoned : ∃ s seen, lookupMachine.run init
    [.start "host" 0, .takeUp 0, .terminate, .start "host" 0, .answer 0 0 [⟨AF_INET, 0⟩]] = some (s, seen) ∧
      s.lookups.next = 2 ∧ s.lists.cell 0 = some [⟨AF_INET, 0⟩] ∧
      ReleasesMemory [.start "host" 0, .takeUp 0, .terminate, .start "host" 0, .answer 0 0 [⟨AF_INET, 0⟩]] seen s :=
  ⟨_, _, rfl, rfl, rfl, lookups_release_memory rfl⟩

end CAddressLookup

end TgeCore.Net
