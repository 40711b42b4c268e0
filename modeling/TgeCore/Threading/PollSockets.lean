import Mathlib.Data.List.Basic
import Mathlib.Data.List.Zip

namespace TgeCore.Threading

inductive EWaitableKind where
  | socket
  | event
deriving DecidableEq

structure SWaitable where
  native : UInt64 := 0xFFFFFFFFFFFFFFFF
  kind : EWaitableKind := .socket
deriving DecidableEq

structure SPollerEntry where
  waitable : SWaitable := {}
  key : UInt64 := 0xFFFFFFFFFFFFFFFF
deriving DecidableEq

structure WSAPOLLFD where
  fd : UInt64 := 0
  events : UInt16 := 0
  revents : UInt16 := 0
deriving DecidableEq

def POLLERR : UInt16 := 0x0001
def POLLHUP : UInt16 := 0x0002
def POLLWRNORM : UInt16 := 0x0010
def POLLRDNORM : UInt16 := 0x0100

def maxSocketsPerPoll : Nat := 64

/-- WSAPoll's answer to the n-th call: what it makes of each poll's revents, or
nothing when it returns SOCKET_ERROR. -/
abbrev WSAPoll := Nat → List WSAPOLLFD → Option (Nat → UInt16)

/-- The locals of PollSockets, the keys it appends to and the calls it made. -/
structure PollSockets where
  polls : List WSAPOLLFD := List.replicate maxSocketsPerPoll {}
  keys : List UInt64 := List.replicate maxSocketsPerPoll 0
  numPolls : Nat := 0
  isPolled : Bool := true
  readyKeys : List UInt64
  calls : List (List WSAPOLLFD) := []

/-- An array's element, overwritten. None past the end. -/
def writeAt {α : Type} (array : List α) (index : Nat) (value : α) : Option (List α) :=
  if index < array.length then some (array.set index value) else none

/-- std::span::first. None where the span is shorter. -/
def first {α : Type} (array : List α) (count : Nat) : Option (List α) :=
  if count ≤ array.length then some (array.take count) else none

def isReady (revents : UInt16) : Bool :=
  revents &&& (POLLRDNORM ||| POLLHUP ||| POLLERR) != 0

/-- The loop of PollChunk. -/
def collectReady (polls : List WSAPOLLFD) (keys : List UInt64) (readyKeys : List UInt64) :
    Option (List UInt64) :=
  (List.range polls.length).foldlM (fun readyKeys index => do
    let poll ← polls[index]?
    if isReady poll.revents then
      let key ← keys[index]?
      pure (readyKeys ++ [key])
    else pure readyKeys) readyKeys

section Poll
variable (wsaPoll : WSAPoll)

/-- Whether the chunk was polled, its polls as WSAPoll leaves them, and the ready keys. -/
def pollChunk (call : Nat) (polls : List WSAPOLLFD) (keys readyKeys : List UInt64) :
    Option (Bool × List WSAPOLLFD × List UInt64) :=
  match wsaPoll call polls with
  | some revents =>
    let polls := polls.mapIdx fun index poll => { poll with revents := revents index }
    (collectReady polls keys readyKeys).map fun readyKeys => (true, polls, readyKeys)
  | none => some (false, polls, readyKeys)

namespace PollSockets

/-- A call to PollChunk over the front of the two arrays. -/
def pollFront (s : PollSockets) (polls : List WSAPOLLFD) (keys : List UInt64) : Option PollSockets :=
  (pollChunk wsaPoll s.calls.length polls keys s.readyKeys).map fun polled =>
    { s with
      polls := polled.2.1 ++ s.polls.drop polled.2.1.length
      isPolled := polled.1
      readyKeys := polled.2.2
      calls := s.calls ++ [polls] }

/-- One turn of the loop over the entries. -/
def add (s : PollSockets) (entry : SPollerEntry) : Option PollSockets :=
  if s.isPolled && entry.waitable.kind = .socket then do
    let polls ← writeAt s.polls s.numPolls ⟨entry.waitable.native, POLLRDNORM ||| POLLWRNORM, 0⟩
    let keys ← writeAt s.keys s.numPolls entry.key
    let s := { s with polls, keys, numPolls := s.numPolls + 1 }
    if s.numPolls = s.polls.length then do
      let s ← s.pollFront wsaPoll s.polls s.keys
      pure { s with numPolls := 0 }
    else pure s
  else pure s

end PollSockets

/-- PollSockets up to its return, which gives `isPolled`. None where it would index
an array past its end. -/
def pollSockets (entries : List SPollerEntry) (readyKeys : List UInt64) : Option PollSockets := do
  let s ← entries.foldlM (PollSockets.add wsaPoll) { readyKeys }
  -- The last chunk, unless there is none left over.
  if s.isPolled && s.numPolls > 0 then do
    let polls ← first s.polls s.numPolls
    let keys ← first s.keys s.numPolls
    s.pollFront wsaPoll polls keys
  else pure s

end Poll

section Specification

/-- The entries a poll is about. -/
def sockets (entries : List SPollerEntry) : List SPollerEntry :=
  entries.filter (·.waitable.kind = .socket)

/-- What is asked about a socket. -/
def SPollerEntry.request (entry : SPollerEntry) : WSAPOLLFD :=
  ⟨entry.waitable.native, POLLRDNORM ||| POLLWRNORM, 0⟩

/-- What WSAPoll answered for each socket of these calls, one after the other. None
where one of the calls failed. -/
def answers (wsaPoll : WSAPoll) (calls : List (List WSAPOLLFD)) : Option (List UInt16) :=
  ((calls.mapIdx fun call polls =>
    (wsaPoll call polls).map fun revents => (List.range polls.length).map revents).mapM id).map
      List.flatten

/-- The keys of the sockets that are readable, hung up or in error, when the n-th
socket is answered the n-th revents. -/
def readyOf (entries : List SPollerEntry) (revents : List UInt16) : List UInt64 :=
  ((entries.zip revents).filter fun answered => isReady answered.2).map fun answered => answered.1.key

/-- Polled in chunks as if polled at once; up to the first chunk that fails. -/
structure PolledAtOnce (wsaPoll : WSAPoll) (entries : List SPollerEntry) (readyKeys : List UInt64)
    (s : PollSockets) : Prop where
  all : ∀ revents, answers wsaPoll s.calls = some revents → s.isPolled = true ∧
    s.calls.flatten = (sockets entries).map SPollerEntry.request ∧
    s.readyKeys = readyKeys ++ readyOf (sockets entries) revents
  stopped : answers wsaPoll s.calls = none → s.isPolled = false ∧ ∃ before failed revents,
    s.calls = before ++ [failed] ∧ answers wsaPoll before = some revents ∧
      wsaPoll before.length failed = none ∧
      s.calls.flatten <+: (sockets entries).map SPollerEntry.request ∧
      s.readyKeys = readyKeys ++ readyOf (sockets entries) revents

end Specification

section Answers
variable {wsaPoll : WSAPoll}

theorem readyOf_append {some' others : List SPollerEntry} {revents more : List UInt16}
    (h : some'.length = revents.length) :
    readyOf (some' ++ others) (revents ++ more) = readyOf some' revents ++ readyOf others more := by
  rw [readyOf, List.zip_append h, List.filter_append, List.map_append]
  rfl

theorem readyOf_singleton (entry : SPollerEntry) (revents : UInt16) :
    readyOf [entry] [revents] = if isReady revents then [entry.key] else [] := by
  simp only [readyOf, List.zip_cons_cons, List.zip_nil_right, List.filter_cons, List.filter_nil]
  split <;> rfl

/-- Sockets without an answer are as good as not there. -/
theorem readyOf_append_left {entries : List SPollerEntry} {revents : List UInt16}
    (h : entries.length = revents.length) (others : List SPollerEntry) :
    readyOf (entries ++ others) revents = readyOf entries revents := by
  have hsplit : readyOf (entries ++ others) (revents ++ []) =
      readyOf entries revents ++ readyOf others [] := readyOf_append h
  rw [List.append_nil] at hsplit
  rw [hsplit, readyOf, readyOf, List.zip_nil_right, List.filter_nil, List.map_nil, List.append_nil]

theorem answers_append (calls : List (List WSAPOLLFD)) (polls : List WSAPOLLFD) :
    answers wsaPoll (calls ++ [polls]) = (answers wsaPoll calls).bind fun revents =>
      (wsaPoll calls.length polls).map fun last => revents ++ (List.range polls.length).map last := by
  simp only [answers, List.mapIdx_concat, List.mapM_append]
  cases (calls.mapIdx fun call polls =>
      (wsaPoll call polls).map fun revents => (List.range polls.length).map revents).mapM id with
  | none => rfl
  | some before =>
    cases wsaPoll calls.length polls with
    | none => simp
    | some revents => simp

/-- PollChunk's loop over a chunk whose polls have been answered. -/
theorem collectReady_requests (entries : List SPollerEntry) (revents : Nat → UInt16)
    (readyKeys : List UInt64) :
    collectReady ((entries.map SPollerEntry.request).mapIdx fun index poll =>
        { poll with revents := revents index }) (entries.map SPollerEntry.key) readyKeys =
      some (readyKeys ++ readyOf entries ((List.range entries.length).map revents)) := by
  generalize hpolls : ((entries.map SPollerEntry.request).mapIdx fun index poll =>
        { poll with revents := revents index }) = polls
  have hlength : polls.length = entries.length := by simp [← hpolls]
  have hcount : ∀ count ≤ entries.length, (List.range count).foldlM (fun readyKeys index => do
      let poll ← polls[index]?
      if isReady poll.revents then
        let key ← (entries.map SPollerEntry.key)[index]?
        pure (readyKeys ++ [key])
      else pure readyKeys) readyKeys =
      some (readyKeys ++ readyOf (entries.take count) ((List.range count).map revents)) := by
    intro count
    induction count with
    | zero => simp [readyOf]
    | succ count ih =>
      intro hle
      have hpoll : polls[count]? = some { entries[count].request with revents := revents count } := by
        simp [← hpolls, List.getElem?_eq_getElem (show count < entries.length by omega)]
      have hkey : (entries.map SPollerEntry.key)[count]? = some entries[count].key := by
        simp [List.getElem?_eq_getElem (show count < entries.length by omega)]
      have htake : (entries.take count).length = ((List.range count).map revents).length := by
        simp
        omega
      rw [List.range_succ, List.foldlM_append, ih (by omega), List.map_append,
        List.take_succ_eq_append_getElem (by omega), List.map_singleton, readyOf_append htake,
        readyOf_singleton]
      simp only [List.foldlM_cons, List.foldlM_nil, bind_pure, Option.bind_eq_bind, Option.bind_some,
        hpoll, hkey]
      split
      · simp
      · simp
  have hall := hcount entries.length (Nat.le_refl _)
  rw [List.take_length] at hall
  rw [collectReady, hlength, hall]

/-- What a call to PollChunk does to a front of the arrays that holds these sockets. -/
structure ChunkPolled (wsaPoll : WSAPoll) (s : PollSockets) (entries : List SPollerEntry)
    (s' : PollSockets) : Prop where
  calls : s'.calls = s.calls ++ [entries.map SPollerEntry.request]
  sizes : s'.polls.length = s.polls.length ∧ s'.keys.length = s.keys.length
  answered : ∀ revents, wsaPoll s.calls.length (entries.map SPollerEntry.request) = some revents →
    s'.isPolled = true ∧ s'.readyKeys =
      s.readyKeys ++ readyOf entries ((List.range entries.length).map revents)
  failed : wsaPoll s.calls.length (entries.map SPollerEntry.request) = none →
    s'.isPolled = false ∧ s'.readyKeys = s.readyKeys

variable (wsaPoll) in
theorem pollFront_polled (s : PollSockets) {entries : List SPollerEntry}
    (hfits : entries.length ≤ s.polls.length) :
    ∃ s', s.pollFront wsaPoll (entries.map SPollerEntry.request) (entries.map SPollerEntry.key) =
      some s' ∧ ChunkPolled wsaPoll s entries s' := by
  unfold PollSockets.pollFront pollChunk
  cases hanswer : wsaPoll s.calls.length (entries.map SPollerEntry.request) with
  | none =>
    refine ⟨_, rfl, ?_⟩
    constructor
    case calls => rfl
    case sizes => simp [hfits]
    case answered => simp [hanswer]
    case failed => exact fun _ => ⟨rfl, rfl⟩
  | some revents =>
    simp only [collectReady_requests, Option.map_some]
    refine ⟨_, rfl, ?_⟩
    constructor
    case calls => rfl
    case sizes => simp [hfits]
    case answered =>
      intro given hgiven
      obtain rfl := Option.some.inj (hanswer.symm.trans hgiven)
      exact ⟨rfl, rfl⟩
    case failed => simp [hanswer]

end Answers

section Loop
variable (wsaPoll : WSAPoll)

/-- The calls made so far were about these sockets, none failed, and they gained these keys. -/
def Answered (calls : List (List WSAPOLLFD)) (polled : List SPollerEntry) (gained : List UInt64) :
    Prop :=
  ∃ revents, answers wsaPoll calls = some revents ∧ polled.length = revents.length ∧
    calls.flatten = polled.map SPollerEntry.request ∧ gained = readyOf polled revents

/-- The loop between two entries: what is not polled yet fills the arrays up to `numPolls`. -/
structure Filling (done : List SPollerEntry) (readyKeys : List UInt64) (polled pending : List SPollerEntry)
    (s : PollSockets) : Prop where
  isPolled : s.isPolled = true
  split : sockets done = polled ++ pending
  numPolls : s.numPolls = pending.length
  room : pending.length < maxSocketsPerPoll
  sizes : s.polls.length = maxSocketsPerPoll ∧ s.keys.length = maxSocketsPerPoll
  polls : s.polls.take pending.length = pending.map SPollerEntry.request
  keys : s.keys.take pending.length = pending.map SPollerEntry.key
  answered : ∃ gained, Answered wsaPoll s.calls polled gained ∧ s.readyKeys = readyKeys ++ gained

/-- The loop after a chunk that failed. -/
structure Stopped (done : List SPollerEntry) (readyKeys : List UInt64) (s : PollSockets) : Prop where
  isPolled : s.isPolled = false
  calls : ∃ before polled failed rest gained, s.calls = before ++ [failed.map SPollerEntry.request] ∧
    sockets done = polled ++ failed ++ rest ∧ Answered wsaPoll before polled gained ∧
    wsaPoll before.length (failed.map SPollerEntry.request) = none ∧ s.readyKeys = readyKeys ++ gained

variable {wsaPoll}

theorem Answered.snoc {calls : List (List WSAPOLLFD)} {polled pending : List SPollerEntry}
    {gained : List UInt64} (h : Answered wsaPoll calls polled gained) {revents : Nat → UInt16}
    (hanswer : wsaPoll calls.length (pending.map SPollerEntry.request) = some revents) :
    Answered wsaPoll (calls ++ [pending.map SPollerEntry.request]) (polled ++ pending)
      (gained ++ readyOf pending ((List.range pending.length).map revents)) := by
  obtain ⟨before, hbefore, hlength, hcalls, rfl⟩ := h
  refine ⟨before ++ (List.range pending.length).map revents, ?_, ?_, ?_, ?_⟩
  · rw [answers_append, hbefore, hanswer]
    simp
  · simp [hlength]
  · rw [List.flatten_append, hcalls, List.map_append]
    simp
  · rw [readyOf_append hlength]

/-- Polling what is pending either empties the arrays or stops the loop. -/
theorem Filling.pollFront (wsaPoll : WSAPoll) {done polled pending : List SPollerEntry}
    {readyKeys : List UInt64} (s : PollSockets) (hsockets : sockets done = polled ++ pending)
    (hsizes : s.polls.length = maxSocketsPerPoll ∧ s.keys.length = maxSocketsPerPoll)
    (hanswered : ∃ gained, Answered wsaPoll s.calls polled gained ∧ s.readyKeys = readyKeys ++ gained)
    (hfits : pending.length ≤ maxSocketsPerPoll) :
    ∃ s', s.pollFront wsaPoll (pending.map SPollerEntry.request) (pending.map SPollerEntry.key) =
        some s' ∧
      (Filling wsaPoll done readyKeys (polled ++ pending) [] { s' with numPolls := 0 } ∨
        Stopped wsaPoll done readyKeys s') := by
  obtain ⟨s', hs', hpolled⟩ := pollFront_polled wsaPoll s (hsizes.1 ▸ hfits)
  obtain ⟨gained, hans, hgained⟩ := hanswered
  refine ⟨s', hs', ?_⟩
  cases hanswer : wsaPoll s.calls.length (pending.map SPollerEntry.request) with
  | none =>
    right
    obtain ⟨hfalse, hsame⟩ := hpolled.failed hanswer
    refine ⟨hfalse, s.calls, polled, pending, [], gained, hpolled.calls, ?_, hans, hanswer, ?_⟩
    · rw [hsockets, List.append_nil]
    · rw [hsame, hgained]
  | some revents =>
    left
    obtain ⟨htrue, hready⟩ := hpolled.answered revents hanswer
    constructor
    case isPolled => exact htrue
    case split => rw [hsockets, List.append_nil]
    case numPolls => rfl
    case room => decide
    case sizes => exact ⟨hpolled.sizes.1.trans hsizes.1, hpolled.sizes.2.trans hsizes.2⟩
    case polls => rfl
    case keys => rfl
    case answered =>
      have hall := hans.snoc hanswer
      rw [← hpolled.calls] at hall
      refine ⟨_, hall, ?_⟩
      change s'.readyKeys = _
      rw [hready, hgained, List.append_assoc]

theorem sockets_append (done : List SPollerEntry) (entry : SPollerEntry) :
    sockets (done ++ [entry]) =
      sockets done ++ if entry.waitable.kind = .socket then [entry] else [] := by
  rw [sockets, List.filter_append]
  by_cases h : entry.waitable.kind = .socket
  · simp [sockets, h]
  · simp [sockets, h]

/-- The arrays' fronts when one more element is written behind them. -/
theorem take_writeAt {α : Type} {array : List α} (front : List α) {capacity : Nat} (value : α)
    (hlength : array.length = capacity) (hfront : array.take front.length = front)
    (hroom : front.length < capacity) :
    ∃ written, writeAt array front.length value = some written ∧ written.length = capacity ∧
      written.take (front.length + 1) = front ++ [value] := by
  refine ⟨array.set front.length value, if_pos (hlength ▸ hroom), by simp [hlength], ?_⟩
  rw [List.take_succ_eq_append_getElem (by simp; omega), List.take_set_of_le (Nat.le_refl _), hfront]
  simp

theorem Filling.add {done polled pending : List SPollerEntry} {readyKeys : List UInt64}
    {s : PollSockets} (h : Filling wsaPoll done readyKeys polled pending s) (entry : SPollerEntry) :
    ∃ s', s.add wsaPoll entry = some s' ∧
      ((∃ polled pending, Filling wsaPoll (done ++ [entry]) readyKeys polled pending s') ∨
        Stopped wsaPoll (done ++ [entry]) readyKeys s') := by
  have hdone := sockets_append done entry
  unfold PollSockets.add
  by_cases hkind : entry.waitable.kind = .socket
  · rw [if_pos hkind, h.split, List.append_assoc] at hdone
    obtain ⟨polls, hpolls, hpollsSize, hpollsTake⟩ := take_writeAt
      (pending.map SPollerEntry.request) entry.request h.sizes.1 (by simpa using h.polls) (by simpa using h.room)
    obtain ⟨keys, hkeys, hkeysSize, hkeysTake⟩ := take_writeAt
      (pending.map SPollerEntry.key) entry.key h.sizes.2 (by simpa using h.keys) (by simpa using h.room)
    rw [List.length_map] at hpolls hkeys hpollsTake hkeysTake
    have hfront : pending.map SPollerEntry.request ++ [entry.request] =
        (pending ++ [entry]).map SPollerEntry.request := by rw [List.map_append, List.map_singleton]
    have hback : pending.map SPollerEntry.key ++ [entry.key] =
        (pending ++ [entry]).map SPollerEntry.key := by rw [List.map_append, List.map_singleton]
    rw [hfront] at hpollsTake
    rw [hback] at hkeysTake
    simp only [SPollerEntry.request] at hpolls
    simp only [h.isPolled, hkind, decide_true, Bool.and_self, if_true, h.numPolls, hpolls, hkeys,
      Option.bind_eq_bind, Option.bind_some, hpollsSize]
    split
    · rename_i hfull
      -- The chunk is the whole of both arrays.
      rw [hfull, ← hpollsSize, List.take_length] at hpollsTake
      rw [hfull, ← hkeysSize, List.take_length] at hkeysTake
      obtain ⟨s', hs', hnext⟩ := Filling.pollFront wsaPoll
        { s with polls, keys, numPolls := pending.length + 1 } hdone
        ⟨hpollsSize, hkeysSize⟩ h.answered (by simp [hfull])
      rw [← hpollsTake, ← hkeysTake, h.isPolled] at hs'
      refine ⟨{ s' with numPolls := 0 }, by rw [hs']; rfl, ?_⟩
      rcases hnext with hfilling | hstopped
      · exact .inl ⟨_, _, hfilling⟩
      · exact .inr ⟨hstopped.isPolled, hstopped.calls⟩
    · rename_i hroom
      have hmore := h.room
      refine ⟨_, rfl, .inl ⟨polled, pending ++ [entry], ?_⟩⟩
      constructor
      case isPolled => rfl
      case split => exact hdone
      case numPolls => simp
      case room =>
        rw [List.length_append, List.length_singleton]
        omega
      case sizes => exact ⟨hpollsSize, hkeysSize⟩
      case polls => simpa using hpollsTake
      case keys => simpa using hkeysTake
      case answered => exact h.answered
  · rw [if_neg hkind, List.append_nil] at hdone
    simp only [hkind, decide_false, Bool.and_false, Bool.false_eq_true, if_false]
    exact ⟨s, rfl, .inl ⟨polled, pending, { h with split := hdone.trans h.split }⟩⟩

theorem Stopped.add {done : List SPollerEntry} {readyKeys : List UInt64} {s : PollSockets}
    (h : Stopped wsaPoll done readyKeys s) (entry : SPollerEntry) :
    s.add wsaPoll entry = some s ∧ Stopped wsaPoll (done ++ [entry]) readyKeys s := by
  refine ⟨by simp [PollSockets.add, h.isPolled], h.isPolled, ?_⟩
  obtain ⟨before, polled, failed, rest, gained, hcalls, hsplit, hrest⟩ := h.calls
  refine ⟨before, polled, failed, rest ++ if entry.waitable.kind = .socket then [entry] else [],
    gained, hcalls, ?_, hrest⟩
  rw [sockets_append, hsplit, List.append_assoc]

/-- The loop over the entries, from where some of them are done. -/
theorem foldlM_add {readyKeys : List UInt64} (entries done : List SPollerEntry) {s : PollSockets}
    (h : (∃ polled pending, Filling wsaPoll done readyKeys polled pending s) ∨
      Stopped wsaPoll done readyKeys s) :
    ∃ s', entries.foldlM (PollSockets.add wsaPoll) s = some s' ∧
      ((∃ polled pending, Filling wsaPoll (done ++ entries) readyKeys polled pending s') ∨
        Stopped wsaPoll (done ++ entries) readyKeys s') := by
  induction entries generalizing done s with
  | nil => exact ⟨s, rfl, by simpa using h⟩
  | cons entry entries ih =>
    have hone : ∃ s', s.add wsaPoll entry = some s' ∧
        ((∃ polled pending, Filling wsaPoll (done ++ [entry]) readyKeys polled pending s') ∨
          Stopped wsaPoll (done ++ [entry]) readyKeys s') := by
      rcases h with ⟨polled, pending, hfilling⟩ | hstopped
      · exact hfilling.add entry
      · exact ⟨s, (hstopped.add entry).1, .inr (hstopped.add entry).2⟩
    obtain ⟨s', hs', hnext⟩ := hone
    obtain ⟨t, ht, hlast⟩ := ih (done ++ [entry]) hnext
    rw [List.append_assoc, List.singleton_append] at hlast
    refine ⟨t, ?_, hlast⟩
    rw [List.foldlM_cons, hs']
    exact ht

theorem Answered.polledAtOnce {entries : List SPollerEntry} {readyKeys : List UInt64}
    {s : PollSockets} {gained : List UInt64} (hpolled : s.isPolled = true)
    (h : Answered wsaPoll s.calls (sockets entries) gained) (hgained : s.readyKeys = readyKeys ++ gained) :
    PolledAtOnce wsaPoll entries readyKeys s := by
  obtain ⟨revents, hanswers, _, hcalls, rfl⟩ := h
  constructor
  · intro given hgiven
    obtain rfl := Option.some.inj (hanswers.symm.trans hgiven)
    exact ⟨hpolled, hcalls, hgained⟩
  · intro hnone
    rw [hanswers] at hnone
    cases hnone

theorem Stopped.polledAtOnce {entries : List SPollerEntry} {readyKeys : List UInt64}
    {s : PollSockets} (h : Stopped wsaPoll entries readyKeys s) :
    PolledAtOnce wsaPoll entries readyKeys s := by
  obtain ⟨before, polled, failed, rest, gained, hcalls, hsplit, hanswered, hfailed, hgained⟩ := h.calls
  obtain ⟨revents, hanswers, hlength, hflat, rfl⟩ := hanswered
  have hnone : answers wsaPoll s.calls = none := by
    rw [hcalls, answers_append, hanswers, hfailed]
    rfl
  constructor
  · intro given hgiven
    rw [hnone] at hgiven
    cases hgiven
  · intro _
    refine ⟨h.isPolled, before, _, revents, hcalls, hanswers, hfailed, ?_, ?_⟩
    · refine ⟨rest.map SPollerEntry.request, ?_⟩
      rw [hcalls, List.flatten_append, hflat, hsplit]
      simp
    · rw [hsplit, List.append_assoc, readyOf_append_left hlength, hgained]

/-- PollSockets stays inside its arrays, and makes of any entries what one poll of
all their sockets would. -/
theorem pollSockets_polledAtOnce (wsaPoll : WSAPoll) (entries : List SPollerEntry)
    (readyKeys : List UInt64) : ∃ s, pollSockets wsaPoll entries readyKeys = some s ∧
      PolledAtOnce wsaPoll entries readyKeys s := by
  have hstart : Filling wsaPoll [] readyKeys [] [] { readyKeys } := by
    constructor
    case answered => exact ⟨[], ⟨[], rfl, rfl, rfl, rfl⟩, by simp⟩
    case room => decide
    case sizes => simp
    all_goals rfl
  obtain ⟨s, hs, hloop⟩ := foldlM_add entries [] (.inl ⟨[], [], hstart⟩)
  rw [List.nil_append] at hloop
  unfold pollSockets
  simp only [hs, Option.bind_eq_bind, Option.bind_some]
  rcases hloop with ⟨polled, pending, h⟩ | h
  · by_cases hleft : s.numPolls > 0
    · have hroom := h.room
      have hpolls : first s.polls s.numPolls = some (pending.map SPollerEntry.request) := by
        rw [first, h.numPolls, if_pos (by rw [h.sizes.1]; omega), h.polls]
      have hkeys : first s.keys s.numPolls = some (pending.map SPollerEntry.key) := by
        rw [first, h.numPolls, if_pos (by rw [h.sizes.2]; omega), h.keys]
      simp only [h.isPolled, hleft, decide_true, Bool.and_self, if_true, hpolls, hkeys,
        Option.bind_some]
      obtain ⟨s', hs', hlast⟩ := Filling.pollFront wsaPoll s h.split h.sizes h.answered (Nat.le_of_lt h.room)
      refine ⟨s', hs', ?_⟩
      rcases hlast with hfilling | hstopped
      · obtain ⟨gained, hanswered, hgained⟩ := hfilling.answered
        have hall := hfilling.split
        rw [List.append_nil] at hall
        rw [← hall] at hanswered
        exact hanswered.polledAtOnce hfilling.isPolled hgained
      · exact hstopped.polledAtOnce
    · simp only [hleft, decide_false, Bool.and_false, Bool.false_eq_true, if_false]
      have hnone : pending = [] := by
        apply List.eq_nil_of_length_eq_zero
        have := h.numPolls
        omega
      obtain ⟨gained, hanswered, hgained⟩ := h.answered
      have hall := h.split
      rw [hnone, List.append_nil] at hall
      rw [← hall] at hanswered
      exact ⟨s, rfl, hanswered.polledAtOnce h.isPolled hgained⟩
  · simp only [h.isPolled, Bool.false_and, Bool.false_eq_true, if_false]
    exact ⟨s, rfl, h.polledAtOnce⟩

end Loop

end TgeCore.Threading
