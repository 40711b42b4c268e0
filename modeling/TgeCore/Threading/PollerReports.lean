import TgeCore.Threading.PollerWait

namespace TgeCore.Threading
open Library

def PollerSeen.native : PollerSeen → Option UInt64
  | .ready native => some native
  | _ => none

namespace PollerState
variable {s t s₀ : PollerState} {entry : SPollerEntry} {ms : List PollerMove} {m : PollerMove}
  {seen : List PollerSeen} {out : PollerSeen} {ready : List SPollerEntry}

/-- The native handles that were found ready, in order. -/
def natives (seen : List PollerSeen) : List UInt64 := seen.filterMap PollerSeen.native

/-- All of it is part of one call of Wait, up to its return. -/
def Inside (seen : List PollerSeen) : Prop := ∀ isWaiting keys, .returned isWaiting keys ∉ seen

theorem natives_concat (seen : List PollerSeen) (out : PollerSeen) :
    natives (seen ++ [out]) = natives seen ++ out.native.toList := by
  cases h : out.native with
  | none => simp [natives, h]
  | some native => simp [natives, h]

theorem nodup_entries (p : CPoller) : p.entries.Nodup := p.distinct.of_map _

/-- The entries that this Wait has still to ask, where it has not come to its end. -/
def remaining (s : PollerState) : List SPollerEntry :=
  match s.wait with
  | .polling again left _ => left ++ if again then [] else watchedEvents s.poller.entries
  | .collecting left => watchedEvents left
  | .waiting _ => watchedEvents s.poller.entries
  | _ => []

/-- The sockets of this chunk that were found ready. -/
def answered (s : PollerState) : List SPollerEntry :=
  match s.wait with
  | .polling _ _ polls => (polls.filter Prod.snd).map Prod.fst
  | _ => []

/-- What a Wait has found ready so far, against what it will report. -/
structure Told (s₀ : PollerState) (seen : List PollerSeen) (ready : List SPollerEntry) (s : PollerState) : Prop where
  inside : s.wait ≠ .out
  poller : s.poller = s₀.poller
  natives : natives seen = ready.map fun entry => entry.waitable.native
  watched : ∀ entry ∈ ready ++ s.remaining, entry ∈ s.poller.entries
  apart : (ready ++ s.remaining).Nodup
  keys : s.isWaiting = true → s.readyKeys ++ s.answered.map SPollerEntry.key = ready.map SPollerEntry.key
  idle : ∀ w, s.wait = .waiting w → ready = [] ∧ w.Holds (watchedEvents s.poller.entries)

/-- A socket that stays readable has been found so, or is still to be asked. -/
structure Steady (s : PollerState) (ready : List SPollerEntry) (entry : SPollerEntry) : Prop where
  readable : s.readable entry.waitable.native = true
  found : entry ∈ ready ∨ s.isWaiting = false ∨ ∃ left polls, s.wait = .polling false left polls ∧ entry ∈ left

/-- A step of a Wait that finds nothing. -/
theorem Told.drops (h : Told s₀ seen ready s) (hinside : t.wait ≠ .out) (hpoller : t.poller = s.poller)
    (hrest : t.remaining.Sublist s.remaining)
    (hkeys : t.isWaiting = true → t.readyKeys ++ t.answered.map SPollerEntry.key = ready.map SPollerEntry.key)
    (hidle : ∀ w, t.wait = .waiting w → ready = [] ∧ w.Holds (watchedEvents s.poller.entries))
    (hout : out.native = none) : Told s₀ (seen ++ [out]) ready t where
  inside := hinside
  poller := hpoller.trans h.poller
  natives := by
    rw [natives_concat, hout, h.natives]
    exact List.append_nil _
  watched entry hentry := by
    rw [hpoller]
    exact h.watched entry ((hrest.append_left ready).subset hentry)
  apart := h.apart.sublist (hrest.append_left ready)
  keys := hkeys
  idle := by
    rw [hpoller]
    exact hidle

/-- A step of a Wait that finds the next entry ready. -/
theorem Told.finds (h : Told s₀ seen ready s) (hinside : t.wait ≠ .out) (hpoller : t.poller = s.poller)
    (hrest : s.remaining = entry :: t.remaining)
    (hkeys : t.isWaiting = true →
      t.readyKeys ++ t.answered.map SPollerEntry.key = ready.map SPollerEntry.key ++ [entry.key])
    (hidle : ∀ w, t.wait ≠ .waiting w) (hout : out.native = some entry.waitable.native) :
    Told s₀ (seen ++ [out]) (ready ++ [entry]) t := by
  have hsplit : ready ++ [entry] ++ t.remaining = ready ++ s.remaining := by simp [hrest]
  constructor
  case inside => exact hinside
  case poller => exact hpoller.trans h.poller
  case natives =>
    rw [natives_concat, hout, h.natives, List.map_append]
    rfl
  case watched =>
    rw [hsplit, hpoller]
    exact h.watched
  case apart =>
    rw [hsplit]
    exact h.apart
  case keys =>
    rw [List.map_append, List.map_singleton]
    exact hkeys
  case idle => exact fun w hw => absurd hw (hidle w)

/-- A step that neither the sockets nor the thread are changed by. -/
theorem Told.quiet (h : Told s₀ seen ready s) (hwait : t.wait = s.wait) (hpoller : t.poller = s.poller)
    (hreadyKeys : t.readyKeys = s.readyKeys) (hwaiting : t.isWaiting = s.isWaiting) (hout : out.native = none) :
    Told s₀ (seen ++ [out]) ready t := by
  have hremaining : t.remaining = s.remaining := by rw [remaining, remaining, hwait, hpoller]
  have hanswered : t.answered = s.answered := by rw [answered, answered, hwait]
  refine h.drops (hwait ▸ h.inside) hpoller (hremaining ▸ List.Sublist.refl _) ?_ (hwait ▸ h.idle) hout
  rw [hwaiting, hreadyKeys, hanswered]
  exact h.keys

theorem Steady.quiet (h : s.Steady ready entry) (hreadable : t.readable entry.waitable.native = true)
    (hwait : t.wait = s.wait) (hwaiting : t.isWaiting = s.isWaiting) : t.Steady ready entry where
  readable := hreadable
  found := by
    rw [hwait, hwaiting]
    exact h.found

theorem Steady.of_mem (h : s.Steady ready entry) (hreadable : t.readable = s.readable) {found : List SPollerEntry}
    (hfound : entry ∈ found) : t.Steady found entry where
  readable := hreadable ▸ h.readable
  found := .inl hfound

theorem Steady.of_ended (h : s.Steady ready entry) (hreadable : t.readable = s.readable) (hended : t.isWaiting = false)
    {found : List SPollerEntry} : t.Steady found entry where
  readable := hreadable ▸ h.readable
  found := .inr (.inl hended)

/-- Past the first poll a socket that stays readable was found. -/
theorem Steady.past (h : s.Steady ready entry) (hreadable : t.readable = s.readable) (hwaiting : t.isWaiting = s.isWaiting)
    (hpast : ∀ left polls, s.wait = .polling false left polls → left = []) (more : List SPollerEntry) :
    t.Steady (ready ++ more) entry := by
  rcases h.found with hfound | hended | ⟨left, polls, hat, hleft⟩
  · exact h.of_mem hreadable (List.mem_append_left _ hfound)
  · exact h.of_ended hreadable (hwaiting.trans hended)
  · rw [hpast left polls hat] at hleft
    cases hleft

/-- What a Wait has found after a step of it, and that it goes on to find the sockets that stay readable. -/
def Continues (s₀ : PollerState) (seen : List PollerSeen) (ready : List SPollerEntry) (s t : PollerState)
    (out : PollerSeen) : Prop :=
  ∃ more, Told s₀ (seen ++ [out]) (ready ++ more) t ∧ ∀ entry, s.Steady ready entry → t.Steady (ready ++ more) entry

theorem Told.continues (h : Told s₀ (seen ++ [out]) ready t) (hsteady : ∀ entry, s.Steady ready entry → t.Steady ready entry) :
    Continues s₀ seen ready s t out := ⟨[], by rwa [List.append_nil], by rwa [List.append_nil]⟩

theorem polled_inside (s : PollerState) (again : Bool) : (s.polled again).wait ≠ .out ∧
    (∀ w, (s.polled again).wait ≠ .waiting w) ∧ (s.polled again).answered = [] ∧
    (s.polled again).remaining = if again then [] else watchedEvents s.poller.entries := by
  unfold polled
  cases again with
  | true => exact ⟨by simp, by simp, rfl, rfl⟩
  | false => exact ⟨by simp, by simp, rfl, rfl⟩

theorem Told.poll (h : Told s₀ seen ready s) (hst : s.poll = some (t, out)) : Continues s₀ seen ready s t out := by
  unfold PollerState.poll at hst
  split at hst
  · rename_i again left polls hat
    have hkeys := h.keys
    simp only [answered, hat] at hkeys
    split at hst
    · split at hst
      · rename_i hpolls
        cases hst
        obtain ⟨hinside, hnotWaiting, hanswered, hremaining⟩ := s.polled_inside again
        refine (h.drops hinside rfl ?_ ?_ (fun w hw => absurd hw (hnotWaiting w)) rfl).continues fun entry hsteady => ?_
        · rw [hremaining, remaining, hat]
          exact List.Sublist.refl _
        · rw [hanswered]
          rw [hpolls] at hkeys
          exact hkeys
        · rw [← List.append_nil ready]
          refine hsteady.past (by rfl) (by rfl) (fun left polls hat' => ?_) []
          rw [hat] at hat'
          cases hat'
          rfl
      · cases hst
    · rename_i first left
      split at hst
      · cases hst
        have hrest : s.remaining = first :: remaining { s with
            wait := .polling again left (polls ++ [(first, s.readable first.waitable.native)]) } := by
          simp [remaining, hat]
        have hfound (entry : SPollerEntry) (hsteady : s.Steady ready entry) (hne : entry ≠ first) : entry ∈ ready ∨
            s.isWaiting = false ∨ ∃ left' polls', WaitAt.polling again left
              (polls ++ [(first, s.readable first.waitable.native)]) = .polling false left' polls' ∧ entry ∈ left' := by
          rcases hsteady.found with hfound | hended | ⟨left', polls', hat', hleft⟩
          · exact .inl hfound
          · exact .inr (.inl hended)
          · rw [hat] at hat'
            cases hat'
            exact .inr (.inr ⟨left, _, rfl, (List.mem_cons.mp hleft).resolve_left hne⟩)
        cases hready : s.readable first.waitable.native with
        | false =>
          rw [hready] at hrest hfound
          refine (h.drops (by simp) (by rfl) (hrest ▸ List.sublist_cons_self _ _) ?_ (by simp) rfl).continues ?_
          · simpa [answered] using hkeys
          · refine fun entry hsteady => ⟨hsteady.readable, hfound entry hsteady ?_⟩
            rintro rfl
            exact Bool.false_ne_true (hready.symm.trans hsteady.readable)
        | true =>
          rw [hready] at hrest hfound
          refine ⟨[first], h.finds (by simp) (by rfl) hrest ?_ (by simp) rfl, fun entry hsteady => ?_⟩
          · intro hwaiting
            rw [← hkeys hwaiting]
            simp [answered]
          · by_cases hsame : entry = first
            · exact hsteady.of_mem (by rfl) (List.mem_append_right _ (List.mem_singleton.mpr hsame))
            · exact ⟨hsteady.readable, (hfound entry hsteady hsame).imp_left (List.mem_append_left _)⟩
      · cases hst
  · cases hst

theorem Told.answer (h : Told s₀ seen ready s) {isPolled : Bool} (hst : s.answer isPolled = some (t, out)) :
    Continues s₀ seen ready s t out := by
  unfold PollerState.answer at hst
  split at hst
  · rename_i again left polls hat
    have hkeys := h.keys
    simp only [answered, hat, List.map_map] at hkeys
    split at hst
    · cases isPolled with
      | false =>
        rw [if_neg (by simp)] at hst
        cases hst
        set failed : PollerState := { s with isWaiting := false } with hfailed
        obtain ⟨hinside, hnotWaiting, -, hremaining⟩ := failed.polled_inside again
        refine (h.drops hinside (by rfl) ?_ ?_ (fun w hw => absurd hw (hnotWaiting w)) rfl).continues ?_
        · rw [hremaining, remaining, hat]
          exact List.sublist_append_right _ _
        · exact fun hwaiting => absurd hwaiting (by simp [polled, failed])
        · exact fun entry hsteady => hsteady.of_ended (by rfl) (by rfl)
      | true =>
        rw [if_pos rfl] at hst
        cases hst
        set given : PollerState :=
          { s with readyKeys := s.readyKeys ++ (polls.filter Prod.snd).map fun poll => poll.1.key } with hgiven
        split
        · rename_i hleft
          obtain ⟨hinside, hnotWaiting, hanswered, hremaining⟩ := given.polled_inside again
          refine (h.drops hinside (by rfl) ?_ ?_ (fun w hw => absurd hw (hnotWaiting w)) rfl).continues fun entry hsteady => ?_
          · rw [hremaining, remaining, hat, hleft]
            exact List.Sublist.refl _
          · rw [hanswered, List.map_nil, List.append_nil]
            exact hkeys
          · rw [← List.append_nil ready]
            refine hsteady.past (by rfl) (by rfl) (fun left' polls' hat' => ?_) []
            rw [hat] at hat'
            cases hat'
            exact hleft
        · refine (h.drops (by simp) (by rfl) ?_ ?_ (by simp) rfl).continues fun entry hsteady => ?_
          · rw [remaining, remaining, hat]
          · simp only [answered, List.filter_nil, List.map_nil, List.append_nil]
            exact hkeys
          · refine ⟨hsteady.readable, hsteady.found.imp_right (Or.imp_right ?_)⟩
            rintro ⟨left', polls', hat', hmem⟩
            rw [hat] at hat'
            cases hat'
            exact ⟨_, [], rfl, hmem⟩
    · cases hst
  · cases hst

theorem Told.collect (h : Told s₀ seen ready s) (hst : s.collect = some (t, out)) : Continues s₀ seen ready s t out := by
  unfold PollerState.collect at hst
  split at hst
  · rename_i hat
    have hkeys := h.keys
    simp only [answered, hat, List.map_nil, List.append_nil] at hkeys
    have hpast (left polls) (hat' : s.wait = .polling false left polls) : left = [] := by
      rw [hat] at hat'
      cases hat'
    split at hst
    · rename_i hempty
      obtain ⟨w, hw, hholds⟩ := s.poller.waitHandles_eq
      rw [hw] at hst
      cases hst
      -- Without a key nothing was found, so that every event is still to be asked.
      have hnone : ready = [] := by
        have hnoKeys := hkeys hempty.1
        rw [hempty.2] at hnoKeys
        exact List.map_eq_nil_iff.mp hnoKeys.symm
      subst hnone
      refine ⟨[], ⟨by simp, h.poller, ?_, ?_, ?_, ?_, ?_⟩, fun entry hsteady => ?_⟩
      · rw [natives_concat, h.natives]
        rfl
      · exact fun entry hentry => (mem_watchedEvents.mp hentry).1
      · exact (nodup_entries s.poller).filter _
      · exact fun _ => by simp [answered, hempty.2]
      · intro w' hw'
        cases hw'
        exact ⟨rfl, hholds⟩
      · exact hsteady.past (by rfl) (by rfl) hpast []
    · cases hst
      refine (h.drops (by simp) (by rfl) (by exact List.nil_sublist _) ?_ (by simp) rfl).continues fun entry hsteady => ?_
      · simpa [answered] using hkeys
      · rw [← List.append_nil ready]
        exact hsteady.past (by rfl) (by rfl) hpast []
  · rename_i first left hat
    have hkeys := h.keys
    simp only [answered, hat, List.map_nil, List.append_nil] at hkeys
    have hpast (left' polls) (hat' : s.wait = .polling false left' polls) : left' = [] := by
      rw [hat] at hat'
      cases hat'
    dsimp only at hst
    split at hst
    · rename_i hset
      cases hst
      have hrest : s.remaining = first :: watchedEvents left := by simp [remaining, hat, watchedEvents, hset.1]
      refine ⟨[first], h.finds (by simp) (by rfl) hrest ?_ (by simp) rfl, fun entry hsteady => ?_⟩
      · intro hwaiting
        rw [← hkeys hwaiting]
        simp [answered]
      · exact hsteady.past (by rfl) (by rfl) hpast [first]
    · cases hst
      refine (h.drops (by simp) (by rfl) ?_ ?_ (by simp) rfl).continues fun entry hsteady => ?_
      · rw [remaining, remaining, hat]
        exact (List.sublist_cons_self first left).filter _
      · simpa [answered] using hkeys
      · rw [← List.append_nil ready]
        exact hsteady.past (by rfl) (by rfl) hpast []
  · cases hst

theorem Told.wakeUp (h : Told s₀ seen ready s) (hst : s.wakeUp = some (t, out)) : Continues s₀ seen ready s t out := by
  unfold PollerState.wakeUp at hst
  split at hst
  · rename_i waited hat
    obtain ⟨hnone, hholds⟩ := h.idle waited hat
    subst hnone
    have hpast (left polls) (hat' : s.wait = .polling false left polls) : left = [] := by
      rw [hat] at hat'
      cases hat'
    have hkeys := h.keys
    simp only [answered, hat, List.map_nil, List.append_nil] at hkeys
    obtain ⟨signalled, -, hst⟩ := Option.bind_eq_some_iff.mp hst
    obtain ⟨handle, hhandle, hst⟩ := Option.bind_eq_some_iff.mp hst
    dsimp only at hst
    split at hst
    · cases hst
      refine ⟨[], ⟨by simp, h.poller, ?_, ?_, ?_, ?_, by simp⟩, fun entry hsteady => ?_⟩
      · rw [natives_concat, h.natives]
        rfl
      · intro entry hentry
        simp only [remaining, if_true, List.append_nil, List.nil_append] at hentry
        exact (mem_sockets.mp hentry).1
      · simp only [remaining, if_true, List.append_nil, List.nil_append]
        exact (nodup_entries s.poller).filter _
      · simpa [answered] using hkeys
      · exact hsteady.past (by rfl) (by rfl) hpast []
    · split at hst
      · rename_i hwatched
        obtain ⟨key, hkey, hst⟩ := Option.bind_eq_some_iff.mp hst
        obtain ⟨entry, hentry, hnative, hkey'⟩ := hholds.entry_at hwatched.1 hwatched.2
        obtain rfl := Option.some.inj (hnative.symm.trans hhandle)
        obtain rfl := Option.some.inj (hkey'.symm.trans hkey)
        cases hst
        refine ⟨[entry], ⟨by simp, h.poller, ?_, ?_, ?_, ?_, by simp⟩, fun other hsteady => ?_⟩
        · rw [natives_concat, h.natives]
          rfl
        · intro other hother
          simp only [remaining, List.nil_append, List.append_nil, List.mem_singleton] at hother
          rw [hother]
          exact (mem_watchedEvents.mp hentry).1
        · simp [remaining]
        · intro hwaiting
          have hnoKeys : s.readyKeys = [] := hkeys hwaiting
          simp [answered, hnoKeys]
        · exact hsteady.past (by rfl) (by rfl) hpast [entry]
      · cases hst
        refine (h.drops (by simp) (by rfl) (by exact List.nil_sublist _) ?_ (by simp) rfl).continues fun entry hsteady => ?_
        · simpa [answered] using hkeys
        · exact hsteady.past (by rfl) (by rfl) hpast []
  · cases hst

/-- Wait gives up, by its timeout or by an error. -/
theorem Told.givesUp (h : Told s₀ seen ready s) {waited : WaitHandles} (hat : s.wait = .waiting waited)
    (hreturning : t.wait = .returning) (hpoller : t.poller = s.poller) (hreadable : t.readable = s.readable)
    (hkeys : t.readyKeys = s.readyKeys) (hwaiting : t.isWaiting = s.isWaiting ∨ t.isWaiting = false)
    (hout : out.native = none) : Continues s₀ seen ready s t out := by
  refine (h.drops (by simp [hreturning]) hpoller ?_ ?_ (by simp [hreturning]) hout).continues fun entry hsteady => ?_
  · rw [remaining, hreturning]
    exact List.nil_sublist _
  · intro hstill
    have hsame : t.isWaiting = s.isWaiting := hwaiting.resolve_right (by simp [hstill])
    have := h.keys (hsame ▸ hstill)
    simpa [answered, hat, hreturning, hkeys] using this
  · rcases hwaiting with hsame | hended
    · rw [← List.append_nil ready]
      refine hsteady.past hreadable hsame (fun left polls hat' => ?_) []
      rw [hat] at hat'
      cases hat'
    · exact hsteady.of_ended hreadable hended

/-- The same of a step that may read from sockets, but for those. -/
def ContinuesUnread (s₀ : PollerState) (seen : List PollerSeen) (ready : List SPollerEntry) (s : PollerState)
    (m : PollerMove) (t : PollerState) (out : PollerSeen) : Prop :=
  ∃ more, Told s₀ (seen ++ [out]) (ready ++ more) t ∧ ∀ entry, (∀ isMore, m ≠ .receive entry.waitable.native isMore) →
    s.Steady ready entry → t.Steady (ready ++ more) entry

theorem Continues.unread (h : Continues s₀ seen ready s t out) : ContinuesUnread s₀ seen ready s m t out := by
  obtain ⟨more, htold, hsteady⟩ := h
  exact ⟨more, htold, fun entry _ => hsteady entry⟩

/-- A step of others leaves the Wait where it is. -/
theorem Told.unread (h : Told s₀ seen ready s) (hout : out.native = none) (hwait : t.wait = s.wait)
    (hpoller : t.poller = s.poller) (hkeys : t.readyKeys = s.readyKeys) (hwaiting : t.isWaiting = s.isWaiting)
    (hreadable : ∀ socket, (∀ isMore, m ≠ .receive socket isMore) → s.readable socket = true →
      t.readable socket = true) : ContinuesUnread s₀ seen ready s m t out := by
  refine ⟨[], ?_, fun entry hnot hsteady => ?_⟩
  · rw [List.append_nil]
    exact h.quiet hwait hpoller hkeys hwaiting hout
  · rw [List.append_nil]
    exact hsteady.quiet (hreadable _ hnot hsteady.readable) hwait hwaiting

theorem Told.arrive (h : Told s₀ seen ready s) (socket : UInt64) :
    ContinuesUnread s₀ seen ready s (.arrive socket) (s.arrive socket) .nothing := by
  obtain ⟨hpoller, hreadable, hwait, hkeys, hwaiting, -, -⟩ :=
    signal_frame { s with readable := Function.update s.readable socket true } socket
  refine h.unread rfl hwait hpoller hkeys hwaiting fun other _ hready => ?_
  rw [PollerState.arrive, hreadable]
  by_cases hsame : other = socket
  · rw [hsame]
    exact Function.update_self ..
  · exact (Function.update_of_ne hsame ..).trans hready

theorem receive_frame (s : PollerState) (socket : UInt64) (isMore : Bool) :
    (s.receive socket isMore).wait = s.wait ∧ (s.receive socket isMore).poller = s.poller ∧
      (s.receive socket isMore).readyKeys = s.readyKeys ∧ (s.receive socket isMore).isWaiting = s.isWaiting ∧
      (s.receive socket isMore).readable = Function.update s.readable socket (s.readable socket && isMore) := by
  unfold PollerState.receive
  dsimp only
  split
  · obtain ⟨hpoller, hreadable, hwait, hkeys, hwaiting, -, -⟩ := signal_frame { s with
      readable := Function.update s.readable socket (s.readable socket && isMore)
      recorded := Function.update s.recorded socket false } socket
    exact ⟨hwait, hpoller, hkeys, hwaiting, hreadable⟩
  · exact ⟨rfl, rfl, rfl, rfl, rfl⟩

theorem Told.receive (h : Told s₀ seen ready s) (socket : UInt64) (isMore : Bool) :
    ContinuesUnread s₀ seen ready s (.receive socket isMore) (s.receive socket isMore) .nothing := by
  obtain ⟨hwait, hpoller, hkeys, hwaiting, hreadable⟩ := s.receive_frame socket isMore
  refine h.unread rfl hwait hpoller hkeys hwaiting fun other hnot hready => ?_
  have hother : other ≠ socket := by
    rintro rfl
    exact hnot isMore rfl
  rw [hreadable, Function.update_of_ne hother]
  exact hready

theorem Told.timeOut (h : Told s₀ seen ready s) (hst : s.step .timeOut = some (t, out)) :
    Continues s₀ seen ready s t out := by
  simp only [PollerState.step] at hst
  split at hst
  · rename_i waited hat
    split at hst
    · cases hst
      exact h.givesUp hat rfl rfl rfl rfl (.inl rfl) rfl
    · cases hst
  · cases hst

theorem Told.failWait (h : Told s₀ seen ready s) (hst : s.step .failWait = some (t, out)) :
    Continues s₀ seen ready s t out := by
  simp only [PollerState.step] at hst
  split at hst
  · rename_i waited hat
    cases hst
    exact h.givesUp hat rfl rfl rfl rfl (.inr rfl) rfl
  · cases hst

theorem Told.step (h : Told s₀ seen ready s) (hst : s.step m = some (t, out))
    (hinside : ∀ isWaiting keys, out ≠ .returned isWaiting keys) : ContinuesUnread s₀ seen ready s m t out := by
  cases m with
  | arrive socket =>
    cases hst
    exact h.arrive socket
  | receive socket isMore =>
    cases hst
    exact h.receive socket isMore
  | setEvent native =>
    cases hst
    exact h.unread rfl rfl rfl rfl rfl fun _ _ hready => hready
  | resetEvent native =>
    cases hst
    exact h.unread rfl rfl rfl rfl rfl fun _ _ hready => hready
  | wake =>
    cases hst
    exact h.unread rfl rfl rfl rfl rfl fun _ _ hready => hready
  | add waitable key selects =>
    simp only [PollerState.step] at hst
    split at hst
    · rename_i hout
      exact absurd hout h.inside
    · cases hst
  | remove native =>
    simp only [PollerState.step] at hst
    split at hst
    · rename_i hout
      exact absurd hout h.inside
    · cases hst
  | wait timeout resets =>
    simp only [PollerState.step] at hst
    split at hst
    · rename_i hout
      exact absurd hout h.inside
    · cases hst
  | poll => exact (h.poll hst).unread
  | answer isPolled => exact (h.answer hst).unread
  | collect => exact (h.collect hst).unread
  | wakeUp => exact (h.wakeUp hst).unread
  | timeOut => exact (h.timeOut hst).unread
  | failWait => exact (h.failWait hst).unread
  | leave =>
    simp only [PollerState.step] at hst
    split at hst
    · cases hst
      exact absurd rfl (hinside _ _)
    · cases hst

/-- A step finds ready only what is, and only one that tells so takes an event's signal, or a reset of the event. -/
structure Takes (s : PollerState) (m : PollerMove) (t : PollerState) (out : PollerSeen) : Prop where
  isReady : ∀ native, out = .ready native → s.readable native = true ∨ s.events.isSet (.event native) = true
  kept : ∀ native, s.events.isSet (.event native) = true →
    t.events.isSet (.event native) = true ∨ m = .resetEvent native ∨ out = .ready native

theorem takes_of_kept (hout : ∀ native, out ≠ .ready native)
    (hkept : ∀ native, s.events.isSet (.event native) = true → t.events.isSet (.event native) = true) :
    Takes s m t out where
  isReady native heq := absurd heq (hout native)
  kept native hset := .inl (hkept native hset)

theorem signal_isSet_event (s : PollerState) (socket native : UInt64) :
    (s.signal socket).events.isSet (.event native) = s.events.isSet (.event native) := by
  unfold signal
  split
  · exact Signals.set_isSet_of_ne (by simp)
  · rfl

theorem add_isSet_event (s : PollerState) (waitable : SWaitable) (key : UInt64) (selects : Bool) (native : UInt64) :
    (s.add waitable key selects).events.isSet (.event native) = s.events.isSet (.event native) := by
  unfold PollerState.add
  split
  · dsimp only
    split
    · split
      · exact signal_isSet_event ..
      · rfl
    · rfl
  · rfl

theorem receive_isSet_event (s : PollerState) (socket : UInt64) (isMore : Bool) (native : UInt64) :
    (s.receive socket isMore).events.isSet (.event native) = s.events.isSet (.event native) := by
  unfold PollerState.receive
  dsimp only
  split
  · exact signal_isSet_event ..
  · rfl

theorem takes_of_poll (hst : s.poll = some (t, out)) : Takes s .poll t out := by
  unfold PollerState.poll at hst
  split at hst
  · rename_i again left polls _
    split at hst
    · split at hst
      · cases hst
        exact takes_of_kept (by simp) fun _ hset => hset
      · cases hst
    · rename_i first left _
      split at hst
      · cases hst
        refine ⟨fun native heq => .inl ?_, fun _ hset => .inl hset⟩
        cases hready : s.readable first.waitable.native with
        | true =>
          rw [hready] at heq
          obtain rfl := PollerSeen.ready.inj heq
          exact hready
        | false =>
          rw [hready] at heq
          cases heq
      · cases hst
  · cases hst

theorem takes_of_answer {isPolled : Bool} (hst : s.answer isPolled = some (t, out)) :
    Takes s (.answer isPolled) t out := by
  unfold PollerState.answer at hst
  split at hst
  · split at hst
    · split at hst
      · cases hst
        refine takes_of_kept (by simp) fun _ hset => ?_
        split
        · exact hset
        · exact hset
      · cases hst
        exact takes_of_kept (by simp) fun _ hset => hset
    · cases hst
  · cases hst

theorem takes_of_collect (hst : s.collect = some (t, out)) : Takes s .collect t out := by
  unfold PollerState.collect at hst
  split at hst
  · split at hst
    · obtain ⟨w, -, heq⟩ := Option.map_eq_some_iff.mp hst
      cases heq
      exact takes_of_kept (by simp) fun _ hset => hset
    · cases hst
      exact takes_of_kept (by simp) fun _ hset => hset
  · rename_i first left _
    dsimp only at hst
    split at hst
    · rename_i hset
      cases hst
      refine ⟨fun native heq => .inr ?_, fun native hnative => ?_⟩
      · obtain rfl := PollerSeen.ready.inj heq
        exact hset.2
      · by_cases hsame : native = first.waitable.native
        · exact .inr (.inr (hsame ▸ rfl))
        · refine .inl ((Signals.seen_isSet_of_ne ?_).trans hnative)
          exact fun heq => hsame (Handle.event.inj heq)
    · cases hst
      exact takes_of_kept (by simp) fun _ hset => hset
  · cases hst

theorem takes_of_wakeUp (hholds : ∀ w, s.wait = .waiting w → w.Holds (watchedEvents s.poller.entries))
    (hst : s.wakeUp = some (t, out)) : Takes s .wakeUp t out := by
  unfold PollerState.wakeUp at hst
  split at hst
  · rename_i waited hat
    have hwaited := hholds waited hat
    obtain ⟨signalled, hfirst, hst⟩ := Option.bind_eq_some_iff.mp hst
    obtain ⟨handle, hhandle, hst⟩ := Option.bind_eq_some_iff.mp hst
    have hset := Signals.isSet_of_firstSet hfirst hhandle
    have hown (hless : signalled < numOwnHandles) (native : UInt64) : Handle.event native ≠ handle := by
      rw [WaitHandles.waited, hwaited.handles, List.getElem?_append_left hless] at hhandle
      have hmem := List.mem_of_getElem? hhandle
      rintro rfl
      simp at hmem
    have hkept (hne : ∀ native, Handle.event native ≠ handle) (native : UInt64)
        (hnative : s.events.isSet (.event native) = true) : (s.events.seen handle).isSet (.event native) = true :=
      (Signals.seen_isSet_of_ne (hne native)).trans hnative
    dsimp only at hst
    split at hst
    · rename_i hsocket
      cases hst
      exact takes_of_kept (by simp) (hkept (hown (by rw [hsocket]; decide)))
    · split at hst
      · rename_i hwatched
        obtain ⟨key, -, hst⟩ := Option.bind_eq_some_iff.mp hst
        obtain ⟨entry, -, hentry, -⟩ := hwaited.entry_at hwatched.1 hwatched.2
        obtain rfl := Option.some.inj (hentry.symm.trans hhandle)
        cases hst
        refine ⟨fun native heq => .inr ?_, fun native hnative => ?_⟩
        · obtain rfl := PollerSeen.ready.inj heq
          exact hset
        · by_cases hsame : native = entry.waitable.native
          · exact .inr (.inr (hsame ▸ rfl))
          · refine .inl ((Signals.seen_isSet_of_ne ?_).trans hnative)
            exact fun heq => hsame (Handle.event.inj heq)
      · rename_i hwatched
        cases hst
        have hlength : signalled < waited.numHandles := by
          obtain ⟨hindex, -⟩ := List.getElem?_eq_some_iff.mp hhandle
          rw [WaitHandles.waited, List.length_take] at hindex
          omega
        exact takes_of_kept (by simp) (hkept (hown (by omega)))
  · cases hst

theorem takes_of_step (hholds : ∀ w, s.wait = .waiting w → w.Holds (watchedEvents s.poller.entries))
    (hst : s.step m = some (t, out)) : Takes s m t out := by
  cases m with
  | arrive socket =>
    cases hst
    exact takes_of_kept (by simp) fun native hset => (signal_isSet_event _ socket native).trans hset
  | receive socket isMore =>
    cases hst
    exact takes_of_kept (by simp) fun native hset => (s.receive_isSet_event socket isMore native).trans hset
  | setEvent native =>
    cases hst
    exact takes_of_kept (by simp) fun _ hset => Signals.isSet_set hset
  | resetEvent native =>
    cases hst
    refine ⟨by simp, fun other hset => ?_⟩
    by_cases hsame : other = native
    · exact .inr (.inl (hsame ▸ rfl))
    · exact .inl ((Signals.reset_isSet_of_ne (fun heq => hsame (Handle.event.inj heq))).trans hset)
  | wake =>
    cases hst
    exact takes_of_kept (by simp) fun _ hset => Signals.isSet_set hset
  | add waitable key selects =>
    simp only [PollerState.step] at hst
    split at hst
    · cases hst
      exact takes_of_kept (by simp) fun native hset => (s.add_isSet_event waitable key selects native).trans hset
    · cases hst
  | remove native =>
    simp only [PollerState.step] at hst
    split at hst
    · cases hst
      exact takes_of_kept (by simp) fun _ hset => hset
    · cases hst
  | wait timeout resets =>
    simp only [PollerState.step] at hst
    split at hst
    · cases hst
      refine takes_of_kept (by simp) fun native hset => ?_
      unfold beginWait
      dsimp only
      split
      · exact (Signals.reset_isSet_of_ne (by simp)).trans hset
      · exact hset
    · cases hst
  | poll => exact takes_of_poll hst
  | answer isPolled => exact takes_of_answer hst
  | collect => exact takes_of_collect hst
  | wakeUp => exact takes_of_wakeUp hholds hst
  | timeOut =>
    simp only [PollerState.step] at hst
    split at hst
    · split at hst
      · cases hst
        exact takes_of_kept (by simp) fun _ hset => hset
      · cases hst
    · cases hst
  | failWait =>
    simp only [PollerState.step] at hst
    split at hst
    · cases hst
      exact takes_of_kept (by simp) fun _ hset => hset
    · cases hst
  | leave =>
    simp only [PollerState.step] at hst
    split at hst
    · cases hst
      exact takes_of_kept (by simp) fun _ hset => hset
    · cases hst

/-- What a Wait has found up to its return. -/
theorem told_run {is : List PollerMove} {os : List PollerSeen} {timeout : Option Nat} {resets : Bool}
    (hbegin : s₀.step (.wait timeout resets) = some (s, out)) (hr : pollerMachine.run s is = some (t, os))
    (hinside : Inside os) : ∃ ready, Told s₀ os ready t ∧ ∀ entry ∈ sockets s₀.poller.entries,
      s₀.readable entry.waitable.native = true → (∀ isMore, .receive entry.waitable.native isMore ∉ is) →
      t.Steady ready entry := by
  have hkept := Machine.run_invariant (M := pollerMachine) (fun is os t => Inside os → ∃ ready, Told s₀ os ready t ∧
    ∀ entry ∈ sockets s₀.poller.entries, s₀.readable entry.waitable.native = true →
      (∀ isMore, .receive entry.waitable.native isMore ∉ is) → t.Steady ready entry) [] [] ?_ ?_ hr
  · exact hkept hinside
  · intro is os s m t out h hst hinside
    obtain ⟨ready, htold, hsteady⟩ := h fun isWaiting keys hmem => hinside isWaiting keys (List.mem_append_left _ hmem)
    obtain ⟨more, htold', hsteady'⟩ := htold.step hst fun isWaiting keys heq =>
      hinside isWaiting keys (List.mem_append_right _ (by simp [heq]))
    refine ⟨ready ++ more, htold', fun entry hentry hready hnot => ?_⟩
    refine hsteady' entry (fun isMore heq => hnot isMore (List.mem_append_right _ (by simp [heq]))) ?_
    exact hsteady entry hentry hready fun isMore hmem => hnot isMore (List.mem_append_left _ hmem)
  · intro _
    simp only [PollerState.step] at hbegin
    split at hbegin
    · cases hbegin
      unfold beginWait
      dsimp only
      refine ⟨[], ?_, fun entry hentry hready _ => ?_⟩
      · split
        · refine ⟨by simp, rfl, rfl, ?_, ?_, fun _ => rfl, by simp⟩
          · intro entry hentry
            simp only [remaining, List.nil_append, Bool.false_eq_true, if_false, List.mem_append] at hentry
            rcases hentry with hsocket | hevent
            · exact (mem_sockets.mp hsocket).1
            · exact (mem_watchedEvents.mp hevent).1
          · simp only [remaining, List.nil_append, Bool.false_eq_true, if_false]
            refine List.nodup_append.mpr ⟨(nodup_entries _).filter _, (nodup_entries _).filter _, ?_⟩
            rintro entry hsocket other hevent rfl
            have := (mem_sockets.mp hsocket).2.symm.trans (mem_watchedEvents.mp hevent).2
            cases this
        · exact ⟨by simp, rfl, rfl, by simp [remaining], by simp [remaining], by simp, by simp⟩
      · split
        · exact ⟨hready, .inr (.inr ⟨_, _, rfl, hentry⟩)⟩
        · exact ⟨hready, .inr (.inl rfl)⟩
    · cases hbegin

/-- Only the end of a Wait returns. -/
theorem step_returned {isWaiting : Bool} {keys : List UInt64} (hst : s.step m = some (t, .returned isWaiting keys)) :
    s.wait = .returning ∧ s.isWaiting = isWaiting ∧ s.readyKeys = keys := by
  cases m with
  | arrive socket => cases hst
  | receive socket isMore => cases hst
  | setEvent native => cases hst
  | resetEvent native => cases hst
  | wake => cases hst
  | add waitable key selects =>
    simp only [PollerState.step] at hst
    split at hst <;> cases hst
  | remove native =>
    simp only [PollerState.step] at hst
    split at hst <;> cases hst
  | wait timeout resets =>
    simp only [PollerState.step] at hst
    split at hst <;> cases hst
  | poll =>
    simp only [PollerState.step, PollerState.poll] at hst
    repeat' split at hst
    all_goals cases hst
  | answer isPolled =>
    simp only [PollerState.step, PollerState.answer] at hst
    repeat' split at hst
    all_goals cases hst
  | collect =>
    simp only [PollerState.step, PollerState.collect] at hst
    repeat' split at hst
    · cases hhandles : waitHandles s.poller.entries with
      | none => simp [hhandles] at hst
      | some w => simp [hhandles] at hst
    all_goals cases hst
  | wakeUp =>
    simp only [PollerState.step, PollerState.wakeUp] at hst
    split at hst
    · obtain ⟨signalled, -, hst⟩ := Option.bind_eq_some_iff.mp hst
      obtain ⟨handle, -, hst⟩ := Option.bind_eq_some_iff.mp hst
      split at hst
      · cases hst
      · split at hst
        · obtain ⟨key, -, hst⟩ := Option.bind_eq_some_iff.mp hst
          have hseen : handle.seen = .returned isWaiting keys := congrArg Prod.snd (Option.some.inj hst)
          cases handle <;> cases hseen
        · cases hst
    · cases hst
  | timeOut =>
    simp only [PollerState.step] at hst
    repeat' split at hst
    all_goals cases hst
  | failWait =>
    simp only [PollerState.step] at hst
    split at hst <;> cases hst
  | leave =>
    simp only [PollerState.step] at hst
    split at hst
    · rename_i hat
      cases hst
      exact ⟨hat, rfl, rfl⟩
    · cases hst

/-- What a Wait that began in one state, and went on from another, found and reports. -/
structure Reports (s₀ s : PollerState) (is : List PollerMove) (os : List PollerSeen) (keys : List UInt64)
    (ready : List SPollerEntry) : Prop where
  once : ready.Nodup
  watched : ∀ entry ∈ ready, entry ∈ s₀.poller.entries
  found : natives os = ready.map fun entry => entry.waitable.native
  reported : keys = ready.map SPollerEntry.key
  steady : ∀ entry ∈ sockets s₀.poller.entries, s₀.readable entry.waitable.native = true →
    (∀ isMore, .receive entry.waitable.native isMore ∉ is) → entry ∈ ready
  isReady : ∀ before m after seen u u' native, is = before ++ m :: after → pollerMachine.run s before = some (u, seen) →
    u.step m = some (u', .ready native) → u.readable native = true ∨ u.events.isSet (.event native) = true
  taken : ∀ before m after seen u u' o native, is = before ++ m :: after →
    pollerMachine.run s before = some (u, seen) → u.step m = some (u', o) →
    u.events.isSet (.event native) = true → u'.events.isSet (.event native) = false → m ≠ .resetEvent native →
    ∃ entry ∈ ready, entry.waitable.native = native

/-- What each step of a Wait takes. -/
theorem takes_run {is before after : List PollerMove} {os seen : List PollerSeen} {timeout : Option Nat} {resets : Bool}
    {keys : List UInt64} {o : PollerSeen} {u u' : PollerState} (hbegin : s₀.step (.wait timeout resets) = some (s, out))
    (hr : pollerMachine.run s is = some (t, os ++ [.returned true keys])) (hinside : Inside os)
    (heq : is = before ++ m :: after) (hbefore : pollerMachine.run s before = some (u, seen))
    (hst : u.step m = some (u', o)) : Takes u m u' o ∧ ∀ native, o = .ready native → o ∈ os := by
  rw [heq] at hr
  obtain ⟨u₁, os₁, os₂, hbefore', hafter, hos⟩ := Machine.run_append_eq_some.mp hr
  obtain ⟨rfl, rfl⟩ := Prod.mk.inj (Option.some.inj (hbefore.symm.trans hbefore'))
  obtain ⟨u₂, o', os', hone, -, rfl⟩ := Machine.run_cons_eq_some.mp hafter
  obtain ⟨rfl, rfl⟩ := Prod.mk.inj (Option.some.inj (hst.symm.trans hone))
  have hfirst : seen <+: os := by
    refine List.prefix_of_prefix_length_le ⟨_, hos.symm⟩ (List.prefix_append os _) ?_
    have hlength := congrArg List.length hos
    simp only [List.length_append, List.length_cons, List.length_nil] at hlength
    omega
  obtain ⟨ready, htold, -⟩ := told_run hbegin hbefore fun isWaiting keys hmem =>
    hinside isWaiting keys (hfirst.subset hmem)
  refine ⟨takes_of_step (fun w hw => (htold.idle w hw).2) hst, fun native hready => ?_⟩
  have hmem : o ∈ os ++ [.returned true keys] := by simp [hos]
  refine (List.mem_append.mp hmem).resolve_right fun hlast => ?_
  rw [hready] at hlast
  cases List.mem_singleton.mp hlast

/-- What a Wait reports is what it found ready, in that order and each entry once: no signal that it takes from an event
is lost, and no socket is missed that stays readable from its begin. -/
theorem wait_reports {is : List PollerMove} {os : List PollerSeen} {timeout : Option Nat} {resets : Bool}
    {keys : List UInt64} (hbegin : s₀.step (.wait timeout resets) = some (s, out))
    (hr : pollerMachine.run s is = some (t, os ++ [.returned true keys])) (hinside : Inside os) :
    ∃ ready, Reports s₀ s is os keys ready := by
  obtain ⟨before, m, u, heq, hrun, hst⟩ := Machine.run_last hr
  obtain ⟨ready, htold, hsteady⟩ := told_run hbegin hrun hinside
  obtain ⟨hat, hwaiting, rfl⟩ := step_returned hst
  have hkeys := htold.keys hwaiting
  simp only [answered, hat, List.map_nil, List.append_nil] at hkeys
  refine ⟨ready, htold.apart.of_append_left, fun entry hentry => ?_, htold.natives, hkeys, ?_, ?_, ?_⟩
  · rw [← htold.poller]
    exact htold.watched entry (List.mem_append_left _ hentry)
  · intro entry hentry hready hnot
    have hlast := hsteady entry hentry hready fun isMore hmem => hnot isMore (heq ▸ List.mem_append_left _ hmem)
    rcases hlast.found with hfound | hended | ⟨left, polls, hpolling, -⟩
    · exact hfound
    · rw [hwaiting] at hended
      cases hended
    · rw [hat] at hpolling
      cases hpolling
  · intro before m after seen u u' native hsplit hbefore hstep
    exact (takes_run hbegin hr hinside hsplit hbefore hstep).1.isReady native rfl
  · intro before m after seen u u' o native hsplit hbefore hstep hset hfell hreset
    obtain ⟨htakes, hmem⟩ := takes_run hbegin hr hinside hsplit hbefore hstep
    obtain rfl : o = .ready native := by
      rcases htakes.kept native hset with hkept | hreset' | hready
      · rw [hkept] at hfell
        cases hfell
      · exact absurd hreset' hreset
      · exact hready
    have hnative : native ∈ natives os := List.mem_filterMap.mpr ⟨_, hmem native rfl, rfl⟩
    rw [htold.natives] at hnative
    obtain ⟨entry, hentry, rfl⟩ := List.mem_map.mp hnative
    exact ⟨entry, hentry, rfl⟩

/-- An event that is set and a socket that is readable are watched. -/
def twoReady : PollerState :=
  ((start (fun native => native = 9) (fun _ => true) (fun native => native = 7)).add ⟨9, .event⟩ 5 true).add
    ⟨7, .socket⟩ 6 true

theorem wait_reports_twoReady : ∃ s ready, twoReady.step (.wait none true) = some (s, .nothing) ∧
    Reports twoReady s [.poll, .answer true, .collect, .collect, .collect, .leave]
      [.ready 7, .nothing, .ready 9, .nothing, .nothing] [6, 5] ready := by
  have hinside : Inside [.ready 7, .nothing, .ready 9, .nothing, .nothing] := by simp [Inside]
  obtain ⟨ready, hreports⟩ := @wait_reports _ _ twoReady _
    [.poll, .answer true, .collect, .collect, .collect, .leave] [.ready 7, .nothing, .ready 9, .nothing, .nothing]
    none true [6, 5] rfl rfl hinside
  exact ⟨_, ready, rfl, hreports⟩

end PollerState

end TgeCore.Threading
