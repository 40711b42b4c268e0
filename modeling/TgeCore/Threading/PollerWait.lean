import TgeCore.Threading.Poller

namespace TgeCore.Threading
open Library

section Handles
variable {entries : List SPollerEntry} {entry : SPollerEntry} {w : WaitHandles}

def watchedEvents (entries : List SPollerEntry) : List SPollerEntry :=
  entries.filter fun entry => entry.waitable.kind = .event

theorem mem_sockets : entry ∈ sockets entries ↔ entry ∈ entries ∧ entry.waitable.kind = .socket := by
  simp [sockets]

theorem mem_watchedEvents : entry ∈ watchedEvents entries ↔ entry ∈ entries ∧ entry.waitable.kind = .event := by
  simp [watchedEvents]

/-- The arrays in front of where the next watched event is written. -/
structure WaitHandles.Holds (w : WaitHandles) (watched : List SPollerEntry) : Prop where
  numHandles : w.numHandles = watched.length + numOwnHandles
  sizes : w.handles.length = maximumWaitObjects ∧ w.keys.length = maximumWaitObjects
  handles : w.handles.take w.numHandles = [.wake, .socket] ++ watched.map fun entry => .event entry.waitable.native
  keys : (w.keys.take w.numHandles).drop numOwnHandles = watched.map SPollerEntry.key

theorem WaitHandles.Holds.add {watched : List SPollerEntry} (h : w.Holds watched) (entry : SPollerEntry)
    (hroom : (watched ++ watchedEvents [entry]).length ≤ maxEvents) :
    ∃ w', w.add entry = some w' ∧ w'.Holds (watched ++ watchedEvents [entry]) := by
  unfold WaitHandles.add
  by_cases hkind : entry.waitable.kind = .event
  · have hone : watchedEvents [entry] = [entry] := by simp [watchedEvents, hkind]
    rw [hone, List.length_append, List.length_singleton] at hroom
    have hnext : w.numHandles < maximumWaitObjects := by
      rw [h.numHandles]
      unfold maxEvents at hroom
      have : numOwnHandles < maximumWaitObjects := by decide
      omega
    have hfront : (w.handles.take w.numHandles).length = w.numHandles := by
      rw [List.length_take, h.sizes.1, Nat.min_eq_left (Nat.le_of_lt hnext)]
    have hkeysFront : (w.keys.take w.numHandles).length = w.numHandles := by
      rw [List.length_take, h.sizes.2, Nat.min_eq_left (Nat.le_of_lt hnext)]
    obtain ⟨handles, hhandles, hhandlesSize, hhandlesTake⟩ := take_writeAt
      (w.handles.take w.numHandles) (Handle.event entry.waitable.native) h.sizes.1 (by rw [hfront]) (by rwa [hfront])
    obtain ⟨keys, hkeys, hkeysSize, hkeysTake⟩ := take_writeAt
      (w.keys.take w.numHandles) entry.key h.sizes.2 (by rw [hkeysFront]) (by rwa [hkeysFront])
    rw [hfront] at hhandles hhandlesTake
    rw [hkeysFront] at hkeys hkeysTake
    refine ⟨⟨handles, keys, w.numHandles + 1⟩, ?_, ?_⟩
    · rw [if_pos hkind]
      simp only [hhandles, hkeys, Option.bind_eq_bind, Option.bind_some, Option.pure_def]
    · rw [hone]
      constructor
      case numHandles =>
        rw [List.length_append, List.length_singleton]
        change w.numHandles + 1 = watched.length + 1 + numOwnHandles
        rw [h.numHandles, Nat.add_right_comm]
      case sizes => exact ⟨hhandlesSize, hkeysSize⟩
      case handles =>
        rw [hhandlesTake, h.handles]
        simp
      case keys =>
        rw [hkeysTake, List.drop_append_of_le_length, h.keys]
        · simp
        · rw [hkeysFront, h.numHandles]
          exact Nat.le_add_left _ _
  · have hnone : watchedEvents [entry] = [] := by simp [watchedEvents, hkind]
    rw [if_neg hkind, hnone, List.append_nil]
    exact ⟨w, rfl, h⟩

/-- However many entries there are, the watched events fit behind the poller's own. -/
theorem waitHandles_eq (hcapped : (watchedEvents entries).length ≤ maxEvents) :
    ∃ w, waitHandles entries = some w ∧ w.Holds (watchedEvents entries) := by
  have hloop : ∀ (later : List SPollerEntry) (watched : List SPollerEntry) (w : WaitHandles), w.Holds watched →
      (watched ++ watchedEvents later).length ≤ maxEvents →
      ∃ w', later.foldlM WaitHandles.add w = some w' ∧ w'.Holds (watched ++ watchedEvents later) := by
    intro later
    induction later with
    | nil =>
      intro watched w h _
      exact ⟨w, rfl, by simpa [watchedEvents] using h⟩
    | cons entry later ih =>
      intro watched w h hroom
      have hsplit : watchedEvents (entry :: later) = watchedEvents [entry] ++ watchedEvents later := by
        rw [watchedEvents, watchedEvents, watchedEvents, ← List.filter_append, List.singleton_append]
      rw [hsplit, ← List.append_assoc] at hroom ⊢
      obtain ⟨w', hw', h'⟩ := h.add entry (by
        rw [List.length_append] at hroom
        exact Nat.le_of_add_right_le hroom)
      obtain ⟨w'', hw'', h''⟩ := ih _ w' h' hroom
      refine ⟨w'', ?_, h''⟩
      rw [List.foldlM_cons, hw']
      exact hw''
  exact hloop entries [] {} ⟨rfl, by simp [maximumWaitObjects, maxEvents, numOwnHandles], rfl, rfl⟩ hcapped

theorem CPoller.waitHandles_eq (p : CPoller) : ∃ w, waitHandles p.entries = some w ∧ w.Holds (watchedEvents p.entries) := by
  apply Threading.waitHandles_eq
  rw [watchedEvents, ← List.countP_eq_length_filter]
  exact p.capped

/-- Past the poller's own, each handle that is waited for is a watched event's, under its key. -/
theorem WaitHandles.Holds.entry_at {watched : List SPollerEntry} (h : w.Holds watched) {index : Nat}
    (hown : numOwnHandles ≤ index) (hindex : index < w.numHandles) : ∃ entry ∈ watched,
      w.waited[index]? = some (.event entry.waitable.native) ∧ w.keys[index]? = some entry.key := by
  obtain ⟨nth, rfl⟩ := Nat.exists_eq_add_of_le hown
  have hnth : nth < watched.length := by
    rw [h.numHandles] at hindex
    omega
  refine ⟨watched[nth], List.getElem_mem hnth, ?_, ?_⟩
  · rw [WaitHandles.waited, h.handles, List.getElem?_append_right hown]
    simp [numOwnHandles, hnth]
  · have hkey := congrArg (fun keys => keys[nth]?) h.keys
    simp only [List.getElem?_drop, List.getElem?_take_of_lt hindex] at hkey
    rw [hkey]
    simp [hnth]

end Handles

namespace PollerState
variable {s t : PollerState} {entry : SPollerEntry} {socket : UInt64}

/-- What still brings the loop's thread to a watched socket that is readable. -/
def Noticed (s : PollerState) (entry : SPollerEntry) : Prop :=
  match s.wait with
  | .polling again left polls =>
    again = true ∨ s.events.isSet .socket = true ∨ s.isWaiting = false ∨ entry ∈ left ∨ (entry, true) ∈ polls ∨
      s.readyKeys ≠ []
  | .collecting _ => s.events.isSet .socket = true ∨ s.isWaiting = false ∨ s.readyKeys ≠ []
  | .waiting _ => s.events.isSet .socket = true
  | _ => True

/-- A watched socket has signalled only if it is readable, and is noticed while it is. -/
structure Watchful (s : PollerState) : Prop where
  manual : s.events.resetsItself .socket = false
  recorded : ∀ entry ∈ sockets s.poller.entries, s.recorded entry.waitable.native = true →
    s.readable entry.waitable.native = true
  noticed : ∀ entry ∈ sockets s.poller.entries, s.readable entry.waitable.native = true → s.Noticed entry
  handles : ∀ w, s.wait = .waiting w → w.Holds (watchedEvents s.poller.entries)

theorem Noticed.of_isSet (h : s.events.isSet .socket = true) : s.Noticed entry := by
  unfold Noticed
  split
  · exact .inr (.inl h)
  · exact .inl h
  · exact h
  · trivial

theorem Noticed.mono (h : s.Noticed entry) (hwait : t.wait = s.wait) (hkeys : t.readyKeys = s.readyKeys)
    (hwaiting : t.isWaiting = s.isWaiting) (hset : s.events.isSet .socket = true → t.events.isSet .socket = true) :
    t.Noticed entry := by
  unfold Noticed at h ⊢
  rw [hwait, hkeys, hwaiting]
  cases hat : s.wait with
  | polling again left polls =>
    rw [hat] at h
    exact h.imp_right (Or.imp_left hset)
  | collecting left =>
    rw [hat] at h
    exact h.imp_left hset
  | waiting w =>
    rw [hat] at h
    exact hset h
  | out => trivial
  | returning => trivial

theorem isSocketWatched_iff : s.isSocketWatched socket = true ↔
    ∃ entry ∈ sockets s.poller.entries, entry.waitable.native = socket := by
  simp only [isSocketWatched, List.any_eq_true, Bool.and_eq_true, decide_eq_true_eq, mem_sockets]
  constructor
  · rintro ⟨entry, hentry, hnative, hkind⟩
    exact ⟨entry, ⟨hentry, hkind⟩, hnative⟩
  · rintro ⟨entry, ⟨hentry, hkind⟩, hnative⟩
    exact ⟨entry, hentry, hnative, hkind⟩

/-- What a signal leaves as it is. -/
theorem signal_frame (s : PollerState) (socket : UInt64) : (s.signal socket).poller = s.poller ∧
    (s.signal socket).readable = s.readable ∧ (s.signal socket).wait = s.wait ∧
    (s.signal socket).readyKeys = s.readyKeys ∧ (s.signal socket).isWaiting = s.isWaiting ∧
    (s.signal socket).events.resetsItself = s.events.resetsItself ∧
    (∀ handle, s.events.isSet handle = true → (s.signal socket).events.isSet handle = true) := by
  unfold signal
  split
  · exact ⟨rfl, rfl, rfl, rfl, rfl, rfl, fun handle h => Signals.isSet_set h⟩
  · exact ⟨rfl, rfl, rfl, rfl, rfl, rfl, fun handle h => h⟩

/-- A watched socket has signalled afterwards. -/
theorem signal_isSet (hwatched : s.isSocketWatched socket = true) :
    s.recorded socket = true ∨ (s.signal socket).events.isSet .socket = true := by
  unfold signal
  cases hrecorded : s.recorded socket with
  | true => exact .inl rfl
  | false =>
    rw [if_pos (by simp [hwatched])]
    exact .inr Signals.set_isSet

theorem signal_recorded {other : UInt64} (h : (s.signal socket).recorded other = true) :
    s.recorded other = true ∨ other = socket := by
  unfold signal at h
  split at h
  · by_cases heq : other = socket
    · exact .inr heq
    · exact .inl ((Function.update_of_ne heq true s.recorded).symm.trans h)
  · exact .inl h

/-- A step that changes neither the sockets nor what is watched. -/
theorem Watchful.keeps (h : s.Watchful) (hpoller : t.poller = s.poller) (hreadable : t.readable = s.readable)
    (hrecorded : t.recorded = s.recorded) (hmanual : t.events.resetsItself .socket = false)
    (hnoticed : ∀ entry ∈ sockets s.poller.entries, s.readable entry.waitable.native = true → s.Noticed entry →
      t.Noticed entry)
    (hhandles : ∀ w, t.wait = .waiting w → w.Holds (watchedEvents s.poller.entries)) : t.Watchful := by
  constructor
  case manual => exact hmanual
  case recorded =>
    rw [hpoller, hreadable, hrecorded]
    exact h.recorded
  case noticed =>
    rw [hpoller, hreadable]
    exact fun entry hentry hready => hnoticed entry hentry hready (h.noticed entry hentry hready)
  case handles =>
    rw [hpoller]
    exact hhandles

/-- Sockets that are readable now and were not noticed before have signalled. -/
theorem Watchful.signal {read : PollerState} (h : read.events.resetsItself .socket = false)
    (hrecorded : ∀ entry ∈ sockets read.poller.entries, read.recorded entry.waitable.native = true →
      read.readable entry.waitable.native = true)
    (hsocket : read.readable socket = true)
    (hnoticed : ∀ entry ∈ sockets read.poller.entries, read.readable entry.waitable.native = true →
      read.Noticed entry ∨ (entry.waitable.native = socket ∧ read.recorded socket = false))
    (hhandles : ∀ w, read.wait = .waiting w → w.Holds (watchedEvents read.poller.entries)) :
    (read.signal socket).Watchful := by
  obtain ⟨hpoller, hreadable, hwait, hkeys, hwaiting, hresets, hset⟩ := signal_frame read socket
  constructor
  case manual => rw [hresets, h]
  case recorded =>
    rw [hpoller, hreadable]
    intro entry hentry hnow
    rcases signal_recorded hnow with hbefore | hsame
    · exact hrecorded entry hentry hbefore
    · rw [hsame, hsocket]
  case noticed =>
    rw [hpoller, hreadable]
    intro entry hentry hready
    rcases hnoticed entry hentry hready with hbefore | ⟨hsame, hnew⟩
    · exact hbefore.mono hwait hkeys hwaiting (hset .socket)
    · have hwatched := isSocketWatched_iff.mpr ⟨entry, hentry, hsame⟩
      rcases signal_isSet hwatched with hold | hnow
      · rw [hnew] at hold
        cases hold
      · exact .of_isSet hnow
  case handles =>
    rw [hpoller, hwait]
    exact hhandles

theorem Watchful.arrive (h : s.Watchful) (socket : UInt64) : (s.arrive socket).Watchful := by
  have hreadable (native : UInt64) (hnative : native ≠ socket) :
      Function.update s.readable socket true native = s.readable native := Function.update_of_ne hnative ..
  refine Watchful.signal h.manual ?_ (Function.update_self ..) ?_ h.handles
  · intro entry hentry hold
    by_cases hsame : entry.waitable.native = socket
    · change Function.update s.readable socket true _ = true
      rw [hsame, Function.update_self]
    · change Function.update s.readable socket true _ = true
      rw [hreadable _ hsame]
      exact h.recorded entry hentry hold
  · intro entry hentry hready
    change Function.update s.readable socket true _ = true at hready
    by_cases hsame : entry.waitable.native = socket
    · cases hold : s.recorded socket with
      | false => exact .inr ⟨hsame, rfl⟩
      | true =>
        have hbefore := h.recorded entry hentry (hsame ▸ hold)
        exact .inl ((h.noticed entry hentry hbefore).mono rfl rfl rfl id)
    · rw [hreadable _ hsame] at hready
      exact .inl ((h.noticed entry hentry hready).mono rfl rfl rfl id)

theorem Watchful.receive (h : s.Watchful) (socket : UInt64) (isMore : Bool) : (s.receive socket isMore).Watchful := by
  set isReadable := s.readable socket && isMore with hisReadable
  set read : PollerState := { s with
    readable := Function.update s.readable socket isReadable
    recorded := Function.update s.recorded socket false } with hread
  have hother (native : UInt64) (hnative : native ≠ socket) : read.readable native = s.readable native ∧
      read.recorded native = s.recorded native :=
    ⟨Function.update_of_ne hnative .., Function.update_of_ne hnative ..⟩
  have hsocket : read.readable socket = isReadable ∧ read.recorded socket = false :=
    ⟨Function.update_self .., Function.update_self ..⟩
  have hrecorded : ∀ entry ∈ sockets s.poller.entries, read.recorded entry.waitable.native = true →
      read.readable entry.waitable.native = true := by
    intro entry hentry hold
    by_cases hsame : entry.waitable.native = socket
    · rw [hsame, hsocket.2] at hold
      cases hold
    · rw [(hother _ hsame).1]
      exact h.recorded entry hentry ((hother _ hsame).2 ▸ hold)
  have hnoticed : ∀ entry ∈ sockets s.poller.entries, read.readable entry.waitable.native = true →
      read.Noticed entry := by
    intro entry hentry hready
    have hbefore : s.readable entry.waitable.native = true := by
      by_cases hsame : entry.waitable.native = socket
      · rw [hsame, hsocket.1, hisReadable, Bool.and_eq_true] at hready
        rw [hsame, hready.1]
      · rwa [(hother _ hsame).1] at hready
    exact (h.noticed entry hentry hbefore).mono rfl rfl rfl id
  have hreceive : s.receive socket isMore = if isReadable then read.signal socket else read := rfl
  rw [hreceive]
  split
  · rename_i hmore
    refine Watchful.signal h.manual hrecorded (hsocket.1.trans hmore) ?_ h.handles
    exact fun entry hentry hready => .inl (hnoticed entry hentry hready)
  · exact ⟨h.manual, hrecorded, hnoticed, h.handles⟩

theorem noticed_of_out (hout : s.wait = .out) (entry : SPollerEntry) : s.Noticed entry := by
  unfold Noticed
  rw [hout]
  trivial

/-- Outside of Wait nothing has to bring the thread to a socket. -/
theorem watchful_of_out (hout : s.wait = .out) (hmanual : s.events.resetsItself .socket = false)
    (hrecorded : ∀ entry ∈ sockets s.poller.entries, s.recorded entry.waitable.native = true →
      s.readable entry.waitable.native = true) : s.Watchful where
  manual := hmanual
  recorded := hrecorded
  noticed entry _ _ := noticed_of_out hout entry
  handles w hw := by
    rw [hout] at hw
    cases hw

theorem Watchful.add (h : s.Watchful) (hout : s.wait = .out) (waitable : SWaitable) (key : UInt64) (selects : Bool) :
    (s.add waitable key selects).Watchful := by
  unfold PollerState.add
  cases hadded : s.poller.add waitable key selects with
  | none => exact h
  | some poller =>
    have hentries := CPoller.entries_of_add hadded
    cases hkind : waitable.kind with
    | event =>
      have hsame : sockets poller.entries = sockets s.poller.entries := by simp [hentries, sockets, hkind]
      exact watchful_of_out hout h.manual fun entry hentry => h.recorded entry (hsame ▸ hentry)
    | socket =>
      have hsplit : sockets poller.entries = sockets s.poller.entries ++ [⟨waitable, key⟩] := by
        simp [hentries, sockets, hkind]
      set selected : PollerState := { s with
        poller
        recorded := Function.update s.recorded waitable.native false } with hselected
      have hrecorded : ∀ entry ∈ sockets poller.entries, selected.recorded entry.waitable.native = true →
          s.readable entry.waitable.native = true := by
        intro entry hentry hold
        change Function.update s.recorded waitable.native false _ = true at hold
        by_cases hsame : entry.waitable.native = waitable.native
        · rw [hsame, Function.update_self] at hold
          cases hold
        · rw [Function.update_of_ne hsame] at hold
          rw [hsplit, List.mem_append, List.mem_singleton] at hentry
          rcases hentry with hbefore | rfl
          · exact h.recorded entry hbefore hold
          · exact absurd rfl hsame
      dsimp only
      split
      · rename_i hready
        have hwait : (selected.signal waitable.native).wait = .out :=
          (signal_frame selected waitable.native).2.2.1.trans hout
        refine Watchful.signal h.manual hrecorded hready ?_ ?_
        · exact fun entry _ _ => .inl (noticed_of_out hout entry)
        · intro w hw
          exact absurd (hout.symm.trans hw) (by simp)
      · exact watchful_of_out hout h.manual hrecorded

theorem Watchful.remove (h : s.Watchful) (hout : s.wait = .out) (native : UInt64) :
    ({ s with poller := s.poller.remove native } : PollerState).Watchful := by
  refine watchful_of_out hout h.manual fun entry hentry => h.recorded entry ?_
  obtain ⟨hmem, hkind⟩ := mem_sockets.mp hentry
  exact mem_sockets.mpr ⟨List.eraseP_sublist.subset hmem, hkind⟩

theorem Watchful.beginWait (h : s.Watchful) (timeout : Option Nat) (resets : Bool) :
    (s.beginWait timeout resets).Watchful := by
  unfold PollerState.beginWait
  dsimp only
  split
  · refine h.keeps rfl rfl rfl h.manual ?_ (fun w hw => by cases hw)
    exact fun entry hentry _ _ => .inr (.inr (.inr (.inl hentry)))
  · exact h.keeps rfl rfl rfl h.manual (fun _ _ _ _ => trivial) (fun w hw => by cases hw)

/-- The end of a PollSockets that has answered all it asked, or failed. -/
theorem Watchful.polled (h : s.Watchful) {again : Bool}
    (hnoticed : ∀ entry ∈ sockets s.poller.entries, s.readable entry.waitable.native = true →
      again = true ∨ s.events.isSet .socket = true ∨ s.isWaiting = false ∨ s.readyKeys ≠ []) :
    (s.polled again).Watchful := by
  refine h.keeps rfl rfl rfl h.manual ?_ ?_
  · intro entry hentry hready _
    unfold Noticed PollerState.polled
    cases again with
    | true => trivial
    | false => exact (hnoticed entry hentry hready).resolve_left (by simp)
  · intro w hw
    unfold PollerState.polled at hw
    cases again with
    | true => cases hw
    | false => cases hw

theorem Watchful.poll (h : s.Watchful) {seen : PollerSeen} (hst : s.poll = some (t, seen)) : t.Watchful := by
  unfold PollerState.poll at hst
  split at hst
  · rename_i again left polls hat
    have hnoticed := h.noticed
    simp only [Noticed, hat] at hnoticed
    split at hst
    · split at hst
      · rename_i hpolls
        cases hst
        refine h.polled fun entry hentry hready => ?_
        simpa [hpolls] using hnoticed entry hentry hready
      · cases hst
    · rename_i first left
      split at hst
      · cases hst
        refine h.keeps rfl rfl rfl h.manual ?_ (fun w hw => by cases hw)
        intro entry hentry hready _
        rcases hnoticed entry hentry hready with hagain | hset | hended | hleft | hpolled | hkeys
        · exact .inl hagain
        · exact .inr (.inl hset)
        · exact .inr (.inr (.inl hended))
        · rcases List.mem_cons.mp hleft with rfl | hlater
          · refine .inr (.inr (.inr (.inr (.inl ?_))))
            exact List.mem_append_right polls (by simp [hready])
          · exact .inr (.inr (.inr (.inl hlater)))
        · exact .inr (.inr (.inr (.inr (.inl (List.mem_append_left _ hpolled)))))
        · exact .inr (.inr (.inr (.inr (.inr hkeys))))
      · cases hst
  · cases hst

/-- A socket that was polled readable leaves a key. -/
theorem readyKeys_of_polled {keys : List UInt64} {polls : List (SPollerEntry × Bool)} (h : (entry, true) ∈ polls) :
    keys ++ (polls.filter Prod.snd).map (fun poll => poll.1.key) ≠ [] := by
  have hkept : (entry, true) ∈ polls.filter Prod.snd := List.mem_filter.mpr ⟨h, rfl⟩
  exact List.append_ne_nil_of_right_ne_nil _ (List.ne_nil_of_mem (List.mem_map_of_mem hkept))

theorem Watchful.answer (h : s.Watchful) {isPolled : Bool} {seen : PollerSeen}
    (hst : s.answer isPolled = some (t, seen)) : t.Watchful := by
  unfold PollerState.answer at hst
  split at hst
  · rename_i again left polls hat
    have hnoticed := h.noticed
    simp only [Noticed, hat] at hnoticed
    split at hst
    · cases isPolled with
      | false =>
        rw [if_neg (by simp)] at hst
        cases hst
        have hended : ({ s with isWaiting := false } : PollerState).Watchful := by
          refine h.keeps rfl rfl rfl h.manual ?_ h.handles
          intro entry _ _ _
          unfold Noticed
          rw [hat]
          exact .inr (.inr (.inl rfl))
        exact hended.polled fun _ _ _ => .inr (.inr (.inl rfl))
      | true =>
        rw [if_pos rfl] at hst
        cases hst
        set answered : PollerState :=
          { s with readyKeys := s.readyKeys ++ (polls.filter Prod.snd).map fun poll => poll.1.key }
        have hanswered : ∀ entry ∈ sockets s.poller.entries, s.readable entry.waitable.native = true →
            again = true ∨ s.events.isSet .socket = true ∨ s.isWaiting = false ∨ entry ∈ left ∨
              answered.readyKeys ≠ [] := by
          intro entry hentry hready
          rcases hnoticed entry hentry hready with hagain | hset | hended | hleft | hpolled | hkeys
          · exact .inl hagain
          · exact .inr (.inl hset)
          · exact .inr (.inr (.inl hended))
          · exact .inr (.inr (.inr (.inl hleft)))
          · exact .inr (.inr (.inr (.inr (readyKeys_of_polled hpolled))))
          · exact .inr (.inr (.inr (.inr (List.append_ne_nil_of_left_ne_nil hkeys _))))
        have hwatchful : answered.Watchful := by
          refine h.keeps rfl rfl rfl h.manual ?_ h.handles
          intro entry hentry hready _
          unfold Noticed
          rw [show answered.wait = s.wait from rfl, hat]
          rcases hanswered entry hentry hready with hagain | hset | hended | hleft | hkeys
          · exact .inl hagain
          · exact .inr (.inl hset)
          · exact .inr (.inr (.inl hended))
          · exact .inr (.inr (.inr (.inl hleft)))
          · exact .inr (.inr (.inr (.inr (.inr hkeys))))
        split
        · rename_i hleft
          refine hwatchful.polled fun entry hentry hready => ?_
          simpa [hleft] using hanswered entry hentry hready
        · refine hwatchful.keeps rfl rfl rfl h.manual ?_ (fun w hw => by cases hw)
          intro entry hentry hready _
          rcases hanswered entry hentry hready with hagain | hset | hended | hleft | hkeys
          · exact .inl hagain
          · exact .inr (.inl hset)
          · exact .inr (.inr (.inl hended))
          · exact .inr (.inr (.inr (.inl hleft)))
          · exact .inr (.inr (.inr (.inr (.inr hkeys))))
    · cases hst
  · cases hst

theorem Watchful.collect (h : s.Watchful) {seen : PollerSeen} (hst : s.collect = some (t, seen)) : t.Watchful := by
  unfold PollerState.collect at hst
  split at hst
  · rename_i hat
    have hnoticed := h.noticed
    simp only [Noticed, hat] at hnoticed
    split at hst
    · rename_i hempty
      obtain ⟨w, hw, hholds⟩ := s.poller.waitHandles_eq
      rw [hw] at hst
      cases hst
      refine h.keeps rfl rfl rfl h.manual ?_ ?_
      · intro entry hentry hready _
        simpa [Noticed, hempty.1, hempty.2] using hnoticed entry hentry hready
      · intro w' hw'
        cases hw'
        exact hholds
    · cases hst
      exact h.keeps rfl rfl rfl h.manual (fun _ _ _ _ => trivial) (fun w hw => by cases hw)
  · rename_i first left hat
    have hnoticed := h.noticed
    simp only [Noticed, hat] at hnoticed
    dsimp only at hst
    split at hst
    · cases hst
      refine h.keeps rfl rfl rfl (by simpa using h.manual) ?_ (fun w hw => by cases hw)
      exact fun _ _ _ _ => .inr (.inr (by simp))
    · cases hst
      exact h.keeps rfl rfl rfl h.manual (fun entry hentry hready _ => hnoticed entry hentry hready)
        (fun w hw => by cases hw)
  · cases hst

theorem Watchful.wakeUp (h : s.Watchful) {seen : PollerSeen} (hst : s.wakeUp = some (t, seen)) : t.Watchful := by
  unfold PollerState.wakeUp at hst
  split at hst
  · rename_i waited hat
    obtain ⟨signalled, hsignalled, hst⟩ := Option.bind_eq_some_iff.mp hst
    obtain ⟨handle, hhandle, hst⟩ := Option.bind_eq_some_iff.mp hst
    have hmanual : (s.events.seen handle).resetsItself .socket = false := by simpa using h.manual
    dsimp only at hst
    split at hst
    · cases hst
      exact h.keeps rfl rfl rfl hmanual (fun _ _ _ _ => .inl rfl) (fun w hw => by cases hw)
    · split at hst
      · obtain ⟨key, hkey, hst⟩ := Option.bind_eq_some_iff.mp hst
        cases hst
        exact h.keeps rfl rfl rfl hmanual (fun _ _ _ _ => trivial) (fun w hw => by cases hw)
      · cases hst
        exact h.keeps rfl rfl rfl hmanual (fun _ _ _ _ => trivial) (fun w hw => by cases hw)
  · cases hst

theorem Watchful.step (h : s.Watchful) {m : PollerMove} {seen : PollerSeen} (hst : s.step m = some (t, seen)) :
    t.Watchful := by
  have hset (handle : Handle) : ({ s with events := s.events.set handle } : PollerState).Watchful := by
    refine h.keeps rfl rfl rfl h.manual ?_ h.handles
    exact fun entry _ _ hnoticed => hnoticed.mono rfl rfl rfl Signals.isSet_set
  cases m with
  | arrive socket =>
    cases hst
    exact h.arrive socket
  | receive socket isMore =>
    cases hst
    exact h.receive socket isMore
  | setEvent native =>
    cases hst
    exact hset _
  | resetEvent native =>
    cases hst
    refine h.keeps rfl rfl rfl h.manual ?_ h.handles
    refine fun entry _ _ hnoticed => hnoticed.mono rfl rfl rfl fun hsocket => ?_
    exact (Signals.reset_isSet_of_ne (by simp)).trans hsocket
  | wake =>
    cases hst
    exact hset _
  | add waitable key selects =>
    simp only [PollerState.step] at hst
    split at hst
    · rename_i hout
      cases hst
      exact h.add hout waitable key selects
    · cases hst
  | remove native =>
    simp only [PollerState.step] at hst
    split at hst
    · rename_i hout
      cases hst
      exact h.remove hout native
    · cases hst
  | wait timeout resets =>
    simp only [PollerState.step] at hst
    split at hst
    · cases hst
      exact h.beginWait timeout resets
    · cases hst
  | poll => exact h.poll hst
  | answer isPolled => exact h.answer hst
  | collect => exact h.collect hst
  | wakeUp => exact h.wakeUp hst
  | timeOut =>
    simp only [PollerState.step] at hst
    split at hst
    · split at hst
      · cases hst
        exact h.keeps rfl rfl rfl h.manual (fun _ _ _ _ => trivial) (fun w hw => by cases hw)
      · cases hst
    · cases hst
  | failWait =>
    simp only [PollerState.step] at hst
    split at hst
    · cases hst
      exact h.keeps rfl rfl rfl h.manual (fun _ _ _ _ => trivial) (fun w hw => by cases hw)
    · cases hst
  | leave =>
    simp only [PollerState.step] at hst
    split at hst
    · cases hst
      exact h.keeps rfl rfl rfl h.manual (fun _ _ _ _ => trivial) (fun w hw => by cases hw)
    · cases hst

/-- A thread that is in WaitForMultipleObjects stays there only while none of its handles is set. -/
theorem Watchful.stuck (h : s.Watchful) {waited : WaitHandles} (hat : s.wait = .waiting waited)
    (hstuck : s.step .wakeUp = none) : s.events.firstSet waited.waited = none := by
  have hholds := h.handles waited hat
  cases hfirst : s.events.firstSet waited.waited with
  | none => rfl
  | some signalled =>
    obtain ⟨hbound, -⟩ := List.findIdx?_eq_some_iff_findIdx_eq.mp hfirst
    have hlength : waited.waited.length ≤ waited.keys.length := by
      rw [WaitHandles.waited, List.length_take, hholds.sizes.1, hholds.sizes.2]
      exact Nat.min_le_right _ _
    have hhandle := List.getElem?_eq_getElem hbound
    have hkey := List.getElem?_eq_getElem (Nat.lt_of_lt_of_le hbound hlength)
    simp only [PollerState.step, PollerState.wakeUp, hat, hfirst, hhandle, hkey, Option.bind_eq_bind,
      Option.bind_some] at hstuck
    split at hstuck
    · cases hstuck
    · split at hstuck
      · cases hstuck
      · cases hstuck

/-- The arrays that Wait collects its handles in have room for them, and a thread that stays in its wait has nothing
to do: nobody has called Wake, no watched event is set, and no watched socket is readable. -/
theorem stuck_nothing_ready {isSet resetsItself readable : UInt64 → Bool} {ms : List PollerMove}
    {seen : List PollerSeen} (hr : pollerMachine.run (start isSet resetsItself readable) ms = some (s, seen)) :
    (∃ w, waitHandles s.poller.entries = some w) ∧
      ∀ waited, s.wait = .waiting waited → s.step .wakeUp = none →
        s.events.isSet .wake = false ∧ ∀ entry ∈ s.poller.entries,
          match entry.waitable.kind with
          | .socket => s.readable entry.waitable.native = false
          | .event => s.events.isSet (.event entry.waitable.native) = false := by
  have h : s.Watchful := by
    refine Machine.run_keeps Watchful (fun s m t seen h hst => h.step hst) ?_ hr
    exact watchful_of_out rfl rfl fun entry hentry => by cases hentry
  refine ⟨s.poller.waitHandles_eq.imp fun _ => And.left, fun waited hat hstuck => ?_⟩
  have hnone := h.stuck hat hstuck
  rw [Signals.firstSet_eq_none_iff, WaitHandles.waited, (h.handles waited hat).handles] at hnone
  refine ⟨hnone .wake (by simp), fun entry hentry => ?_⟩
  split
  · rename_i hkind
    have hnotSet := hnone .socket (by simp)
    cases hready : s.readable entry.waitable.native with
    | false => rfl
    | true =>
      have hnoticed := h.noticed entry (mem_sockets.mpr ⟨hentry, hkind⟩) hready
      rw [Noticed, hat] at hnoticed
      exact absurd hnoticed (by simp [hnotSet])
  · rename_i hkind
    refine hnone _ (List.mem_append_right _ (List.mem_map.mpr ⟨entry, ?_, rfl⟩))
    exact mem_watchedEvents.mpr ⟨hentry, hkind⟩

/-- A socket and an event are watched, and the thread comes to its wait. -/
def idleRun : List PollerMove :=
  [.add ⟨7, .socket⟩ 0 true, .add ⟨9, .event⟩ 1 true, .wait none true, .poll, .answer true, .collect, .collect, .collect]

theorem stuck_nothing_ready_idle : ∃ s seen waited,
    pollerMachine.run (start (fun _ => false) (fun _ => true) (fun _ => false)) idleRun = some (s, seen) ∧
      s.wait = .waiting waited ∧ s.step .wakeUp = none ∧ s.readable 7 = false ∧ s.events.isSet (.event 9) = false := by
  refine ⟨_, _, _, rfl, rfl, rfl, ?_⟩
  have h := ((@stuck_nothing_ready _ (fun _ => false) (fun _ => true) (fun _ => false) idleRun _ rfl).2 _ rfl rfl).2
  exact ⟨h ⟨⟨7, .socket⟩, 0⟩ (List.Mem.head _), h ⟨⟨9, .event⟩, 1⟩ (List.Mem.tail _ (List.Mem.head _))⟩

end PollerState

end TgeCore.Threading
