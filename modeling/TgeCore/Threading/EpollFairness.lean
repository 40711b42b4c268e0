import Mathlib.Data.List.Perm.Subperm
import TgeCore.Threading.EpollWait

namespace TgeCore.Threading
open Library

/-- A step that does not take away what there is to read of a watched descriptor, nor the watch. -/
def EpollMove.leaves (entry : EpollEntry) : EpollMove → Bool
  | .drain descriptor => descriptor ≠ entry.descriptor
  | .remove waitable => waitable.descriptor ≠ entry.descriptor
  | _ => true

def EpollMove.events : EpollMove → List EpollEntry
  | .report events => events
  | _ => []

/-- What the waits have reported, without what is no longer watched. -/
def EpollMove.servedAfter (served : List EpollEntry) : EpollMove → List EpollEntry
  | .report events => served ++ events
  | .remove waitable => served.filter fun entry => entry.descriptor ≠ waitable.descriptor
  | _ => served

/-- epoll_wait goes round the readable descriptors, as its documentation says: until it reports the entry it reports
none of the others a second time, except one that was watched anew. -/
def RoundRobin (entry : EpollEntry) : List EpollEntry → List EpollMove → Prop
  | _, [] => True
  | served, m :: ms =>
    entry ∈ m.events ∨ (∀ other ∈ m.events, other ∉ served) ∧ RoundRobin entry (m.servedAfter served) ms

instance RoundRobin.decidable (entry : EpollEntry) :
    (served : List EpollEntry) → (ms : List EpollMove) → Decidable (RoundRobin entry served ms)
  | _, [] => isTrue trivial
  | served, m :: ms =>
    let _ := RoundRobin.decidable entry (m.servedAfter served) ms
    inferInstanceAs (Decidable (_ ∨ _ ∧ _))

def EpollMove.numAdds : EpollMove → Nat
  | .add .. => 1
  | _ => 0

/-- How often a descriptor is added, whether epoll takes it or not. -/
def numAdds : List EpollMove → Nat
  | [] => 0
  | m :: ms => m.numAdds + numAdds ms

def EpollSeen.numWaits : EpollSeen → Nat
  | .returned true _ => 1
  | _ => 0

/-- How many waits have returned that did not fail. -/
def numWaits : List EpollSeen → Nat
  | [] => 0
  | out :: seen => out.numWaits + numWaits seen

namespace EpollState
variable {s t : EpollState} {entry : EpollEntry} {m : EpollMove} {out : EpollSeen} {ms : List EpollMove}
  {seen : List EpollSeen} {served events : List EpollEntry}

theorem canReport_iff : s.canReport events = true ↔
    events ≠ [] ∧ events.Nodup ∧ events ⊆ s.ready ∧ events.length ≤ maxEventsPerWait ∧
      (events.length = maxEventsPerWait ∨ s.ready ⊆ events) := by
  simp [canReport]

/-- What a step is: one of others, one of the loop's thread outside of Wait, or one of Wait's own. -/
inductive Does (s : EpollState) : EpollMove → EpollState → EpollSeen → Prop
  | arrive (descriptor : Int32) : Does s (.arrive descriptor) (s.arrive descriptor) .nothing
  | drain (descriptor : Int32) : Does s (.drain descriptor) (s.drain descriptor) .nothing
  | wake : Does s .wake (s.arrive s.wakeDescriptor) .nothing
  | add (waitable : SWaitable) (key : UInt64) (adds : Bool) (hout : s.wait = .out) :
    Does s (.add waitable key adds) (s.add waitable key adds) .nothing
  | remove (waitable : SWaitable) (hout : s.wait = .out) : Does s (.remove waitable) (s.remove waitable) .nothing
  | wait (timeout : Option Nat) (hout : s.wait = .out) :
    Does s (.wait timeout) { s with wait := .waiting (toEpollTimeoutMs timeout) } .nothing
  | report (events : List EpollEntry) (timeoutMs : Int) (hat : s.wait = .waiting timeoutMs)
    (hreport : s.canReport events = true) : Does s (.report events) (s.past true events) .nothing
  | idle (m : EpollMove) (timeoutMs : Int) (hat : s.wait = .waiting timeoutMs) (hidle : s.ready = []) :
    Does s m (s.past true []) .nothing
  | fail (timeoutMs : Int) (hat : s.wait = .waiting timeoutMs) : Does s .fail (s.past false []) .nothing
  | handle (isWaiting : Bool) (event : EpollEntry) (events : List EpollEntry)
    (hat : s.wait = .handling isWaiting (event :: events)) :
    Does s .handle (s.handle isWaiting event events) .nothing
  | leave (isWaiting : Bool) (hat : s.wait = .handling isWaiting []) :
    Does s .leave { s with wait := .out } (.returned isWaiting s.readyKeys)

theorem step_does (hst : s.step m = some (t, out)) : s.Does m t out := by
  cases m with
  | arrive descriptor =>
    cases hst
    exact .arrive descriptor
  | drain descriptor =>
    cases hst
    exact .drain descriptor
  | wake =>
    cases hst
    exact .wake
  | add waitable key adds =>
    simp only [step] at hst
    split at hst
    · rename_i hout
      cases hst
      exact .add waitable key adds hout
    · cases hst
  | remove waitable =>
    simp only [step] at hst
    split at hst
    · rename_i hout
      cases hst
      exact .remove waitable hout
    · cases hst
  | wait timeout =>
    simp only [step] at hst
    split at hst
    · rename_i hout
      cases hst
      exact .wait timeout hout
    · cases hst
  | report events =>
    simp only [step] at hst
    split at hst
    · rename_i timeoutMs hat
      split at hst
      · rename_i hreport
        cases hst
        exact .report events timeoutMs hat hreport
      · cases hst
    · cases hst
  | timeOut =>
    simp only [step] at hst
    split at hst
    · rename_i timeoutMs hat
      split at hst
      · rename_i hidle
        cases hst
        exact .idle _ timeoutMs hat hidle.1
      · cases hst
    · cases hst
  | interrupt =>
    simp only [step] at hst
    split at hst
    · rename_i timeoutMs hat
      split at hst
      · rename_i hidle
        cases hst
        exact .idle _ timeoutMs hat hidle
      · cases hst
    · cases hst
  | fail =>
    simp only [step] at hst
    split at hst
    · rename_i timeoutMs hat
      cases hst
      exact .fail timeoutMs hat
    · cases hst
  | handle =>
    simp only [step] at hst
    split at hst
    · rename_i isWaiting event events hat
      cases hst
      exact .handle isWaiting event events hat
    · cases hst
  | leave =>
    simp only [step] at hst
    split at hst
    · rename_i isWaiting hat
      cases hst
      exact .leave isWaiting hat
    · cases hst

/-- A watched descriptor stays readable, and is not the wake signal. -/
structure Stays (s : EpollState) (entry : EpollEntry) : Prop where
  watched : entry ∈ s.interest
  ready : s.isReady entry = true
  notWake : entry.descriptor ≠ s.wakeDescriptor
  notWakeKey : entry.key ≠ wakeKey

theorem Stays.mem_ready (h : s.Stays entry) : entry ∈ s.ready := List.mem_filter.mpr ⟨h.watched, h.ready⟩

theorem Stays.update (h : s.Stays entry) {descriptor : Int32} {isReadable : Bool}
    (hleaves : isReadable = true ∨ descriptor ≠ entry.descriptor) :
    Function.update s.readable descriptor isReadable entry.descriptor = true := by
  by_cases hsame : entry.descriptor = descriptor
  · rw [hsame, Function.update_self]
    exact hleaves.resolve_right fun hne => hne hsame.symm
  · rw [Function.update_of_ne hsame]
    exact h.ready

theorem Stays.step (h : s.Stays entry) (hst : s.step m = some (t, out)) (hleaves : m.leaves entry = true) :
    t.Stays entry := by
  obtain ⟨hwatched, hready, hnotWake, hnotWakeKey⟩ := h
  have hupdate := @Stays.update s entry ⟨hwatched, hready, hnotWake, hnotWakeKey⟩
  cases step_does hst with
  | arrive descriptor => exact ⟨hwatched, hupdate (.inl rfl), hnotWake, hnotWakeKey⟩
  | drain descriptor => exact ⟨hwatched, hupdate (.inr (of_decide_eq_true hleaves)), hnotWake, hnotWakeKey⟩
  | wake => exact ⟨hwatched, hupdate (.inl rfl), hnotWake, hnotWakeKey⟩
  | add waitable key adds hout =>
    unfold EpollState.add
    dsimp only
    split
    · exact ⟨List.mem_append_left _ hwatched, hready, hnotWake, hnotWakeKey⟩
    · exact ⟨hwatched, hready, hnotWake, hnotWakeKey⟩
  | remove waitable hout =>
    refine ⟨List.mem_filter.mpr ⟨hwatched, ?_⟩, hready, hnotWake, hnotWakeKey⟩
    exact decide_eq_true fun hsame => of_decide_eq_true hleaves hsame.symm
  | wait timeout hout => exact ⟨hwatched, hready, hnotWake, hnotWakeKey⟩
  | report events timeoutMs hat hreport => exact ⟨hwatched, hready, hnotWake, hnotWakeKey⟩
  | idle _ timeoutMs hat hidle => exact ⟨hwatched, hready, hnotWake, hnotWakeKey⟩
  | fail timeoutMs hat => exact ⟨hwatched, hready, hnotWake, hnotWakeKey⟩
  | handle isWaiting event events hat =>
    unfold EpollState.handle
    split
    · exact ⟨hwatched, hupdate (.inr hnotWake.symm), hnotWake, hnotWakeKey⟩
    · exact ⟨hwatched, hready, hnotWake, hnotWakeKey⟩
  | leave isWaiting hat => exact ⟨hwatched, hready, hnotWake, hnotWakeKey⟩

/-- A wait that has returned reported the entry's key. -/
def Found (entry : EpollEntry) (seen : List EpollSeen) : Prop := ∃ keys, .returned true keys ∈ seen ∧ entry.key ∈ keys

theorem Found.cons (h : Found entry seen) : Found entry (out :: seen) := by
  obtain ⟨keys, hmem, hkey⟩ := h
  exact ⟨keys, List.mem_cons_of_mem out hmem, hkey⟩

/-- The wait going on has the entry's key or its event. -/
def Pending (s : EpollState) (entry : EpollEntry) : Prop :=
  ∃ events, s.wait = .handling true events ∧ (entry.key ∈ s.readyKeys ∨ entry ∈ events)

theorem Pending.step (h : s.Pending entry) (hkey : entry.key ≠ wakeKey) (hst : s.step m = some (t, out)) :
    (∃ keys, out = .returned true keys ∧ entry.key ∈ keys) ∨ t.Pending entry ∧ out = .nothing := by
  obtain ⟨events, hwait, hhas⟩ := h
  cases step_does hst with
  | arrive descriptor => exact .inr ⟨⟨events, hwait, hhas⟩, rfl⟩
  | drain descriptor => exact .inr ⟨⟨events, hwait, hhas⟩, rfl⟩
  | wake => exact .inr ⟨⟨events, hwait, hhas⟩, rfl⟩
  | add waitable key adds hout => cases hwait.symm.trans hout
  | remove waitable hout => cases hwait.symm.trans hout
  | wait timeout hout => cases hwait.symm.trans hout
  | report events timeoutMs hat hreport => cases hwait.symm.trans hat
  | idle _ timeoutMs hat hidle => cases hwait.symm.trans hat
  | fail timeoutMs hat => cases hwait.symm.trans hat
  | handle isWaiting event rest hat =>
    cases hwait.symm.trans hat
    refine .inr ⟨⟨rest, ?_⟩, rfl⟩
    unfold EpollState.handle
    split
    · rename_i hwake
      refine ⟨rfl, hhas.imp_right fun hmem => (List.mem_cons.mp hmem).resolve_left ?_⟩
      rintro rfl
      exact hkey hwake
    · refine ⟨rfl, ?_⟩
      rcases hhas with hhas | hhas
      · exact .inl (List.mem_append_left _ hhas)
      · rcases List.mem_cons.mp hhas with rfl | hhas
        · exact .inl (List.mem_append_right _ (List.mem_singleton_self _))
        · exact .inr hhas
  | leave isWaiting hat =>
    cases hwait.symm.trans hat
    exact .inl ⟨s.readyKeys, rfl, hhas.resolve_right List.not_mem_nil⟩

/-- It reports the entry, or has not returned yet. -/
theorem Pending.run (h : s.Pending entry) (hkey : entry.key ≠ wakeKey)
    (hrun : epollMachine.run s ms = some (t, seen)) : Found entry seen ∨ numWaits seen = 0 := by
  induction ms generalizing s seen with
  | nil =>
    cases hrun
    exact .inr rfl
  | cons m ms ih =>
    obtain ⟨u, out, seen, hone, hrest, rfl⟩ := Machine.run_cons_eq_some.mp hrun
    rcases h.step hkey hone with ⟨keys, rfl, hkeys⟩ | ⟨hnext, rfl⟩
    · exact .inl ⟨keys, List.mem_cons_self, hkeys⟩
    · rcases ih hnext hrest with hfound | hnone
      · exact .inl hfound.cons
      · exact .inr (by simpa only [numWaits, EpollSeen.numWaits, Nat.zero_add] using hnone)

/-- What has been reported while the entry is not: watched descriptors, each once. -/
structure Served (s : EpollState) (entry : EpollEntry) (served : List EpollEntry) : Prop where
  watched : served ⊆ s.interest
  nodup : served.Nodup
  others : entry ∉ served

theorem Served.length_lt (h : s.Served entry served) (hwatched : entry ∈ s.interest) :
    served.length < s.interest.length := by
  have hnodup : (entry :: served).Nodup := List.nodup_cons.mpr ⟨h.others, h.nodup⟩
  have hsub : entry :: served ⊆ s.interest := List.cons_subset.mpr ⟨hwatched, h.watched⟩
  exact (List.Nodup.subperm hnodup hsub).length_le

theorem Served.congr (h : s.Served entry served) (hinterest : t.interest = s.interest) : t.Served entry served :=
  ⟨hinterest ▸ h.watched, h.nodup, h.others⟩

theorem Served.add (h : s.Served entry served) (waitable : SWaitable) (key : UInt64) (adds : Bool) :
    (s.add waitable key adds).Served entry served ∧
      (s.add waitable key adds).interest.length ≤ s.interest.length + 1 := by
  unfold EpollState.add
  dsimp only
  split
  · refine ⟨⟨fun _ hmem => List.mem_append_left _ (h.watched hmem), h.nodup, h.others⟩, ?_⟩
    exact Nat.le_of_eq List.length_append
  · exact ⟨h, Nat.le_succ _⟩

/-- As many leave what was served as leave what is watched, or fewer. -/
theorem Served.remove (h : s.Served entry served) (waitable : SWaitable) :
    (s.remove waitable).Served entry (EpollMove.servedAfter served (.remove waitable)) ∧
      (s.remove waitable).interest.length + served.length ≤
        s.interest.length + (EpollMove.servedAfter served (.remove waitable)).length := by
  let stays : EpollEntry → Bool := fun entry => entry.descriptor ≠ waitable.descriptor
  have hkept : served.filter stays ⊆ s.interest.filter stays := List.filter_subset stays h.watched
  refine ⟨⟨hkept, h.nodup.filter stays, fun hmem => h.others (List.mem_of_mem_filter hmem)⟩, ?_⟩
  have hgone : (served.filter fun entry => !stays entry).length ≤
      (s.interest.filter fun entry => !stays entry).length :=
    (List.Nodup.subperm (h.nodup.filter _) (List.filter_subset _ h.watched)).length_le
  have hserved := List.length_eq_length_filter_add stays (l := served)
  have hinterest := List.length_eq_length_filter_add stays (l := s.interest)
  change (s.interest.filter stays).length + served.length ≤ s.interest.length + (served.filter stays).length
  omega

/-- A wait that does not report the entry is full, of descriptors it has not reported before. -/
theorem Served.report (h : s.Served entry served) (hstays : s.Stays entry) (hreport : s.canReport events = true)
    (hnot : entry ∉ events) (hfresh : ∀ other ∈ events, other ∉ served) :
    (s.past true events).Served entry (served ++ events) ∧ events.length = maxEventsPerWait := by
  obtain ⟨-, hnodup, hready, -, hfull⟩ := canReport_iff.mp hreport
  refine ⟨⟨?_, ?_, ?_⟩, hfull.resolve_right fun hall => hnot (hall hstays.mem_ready)⟩
  · exact List.append_subset.mpr ⟨h.watched, fun _ hmem => List.mem_of_mem_filter (hready hmem)⟩
  · exact List.Nodup.append h.nodup hnodup fun other hold hnew => hfresh other hnew hold
  · exact fun hmem => (List.mem_append.mp hmem).elim h.others hnot

/-- The room of the wait that is past epoll_wait. -/
def roomTaken (s : EpollState) : Nat :=
  match s.wait with
  | .handling true _ => maxEventsPerWait
  | _ => 0

theorem roomTaken_out (hout : s.wait = .out) : s.roomTaken = 0 := by
  simp only [roomTaken, hout]

theorem roomTaken_handling {isWaiting : Bool} (hat : s.wait = .handling isWaiting events) :
    s.roomTaken = if isWaiting then maxEventsPerWait else 0 := by
  cases isWaiting <;> simp [roomTaken, hat]

theorem handle_same (s : EpollState) (isWaiting : Bool) (event : EpollEntry) (events : List EpollEntry) :
    (s.handle isWaiting event events).interest = s.interest ∧
      (s.handle isWaiting event events).wait = .handling isWaiting events := by
  unfold EpollState.handle
  split <;> exact ⟨rfl, rfl⟩

/-- How far the waits have got through what is watched, of which they reported `served`. -/
def Few (s : EpollState) (served : List EpollEntry) (ms : List EpollMove) (seen : List EpollSeen) : Prop :=
  maxEventsPerWait * numWaits seen + served.length < s.interest.length + numAdds ms + s.roomTaken

/-- A step that reports nothing adds to neither side, or to what is watched. -/
theorem Few.quiet {after : List EpollEntry} (h : t.Few after ms seen)
    (hlength : t.interest.length + served.length ≤ s.interest.length + after.length + m.numAdds)
    (htaken : t.roomTaken ≤ s.roomTaken) : s.Few served (m :: ms) (.nothing :: seen) := by
  simp only [Few, numWaits, EpollSeen.numWaits, Nat.zero_add, numAdds] at h ⊢
  omega

theorem Few.report (h : (s.past true events).Few (served ++ events) ms seen)
    (hlength : events.length = maxEventsPerWait) : s.Few served (m :: ms) (.nothing :: seen) := by
  have htaken : (s.past true events).roomTaken = maxEventsPerWait := rfl
  have hinterest : (s.past true events).interest = s.interest := rfl
  simp only [Few, numWaits, EpollSeen.numWaits, Nat.zero_add, numAdds, List.length_append, htaken, hinterest] at h ⊢
  omega

theorem Few.leave {isWaiting : Bool} {keys : List UInt64}
    (h : Few { s with wait := .out } served ms seen) (hat : s.wait = .handling isWaiting []) :
    s.Few served (.leave :: ms) (.returned isWaiting keys :: seen) := by
  have htaken : roomTaken { s with wait := .out } = 0 := rfl
  simp only [Few, htaken] at h
  simp only [Few, roomTaken_handling hat]
  cases isWaiting
  · simp only [numWaits, EpollSeen.numWaits, numAdds, EpollMove.numAdds]
    simpa using h
  · simp only [numWaits, EpollSeen.numWaits, numAdds, EpollMove.numAdds, maxEventsPerWait] at h ⊢
    simp only [if_true]
    omega

/-- The waits report the entry, or as many others as they have room for, none of them twice. -/
theorem found_or_few (hstays : s.Stays entry) (hserved : s.Served entry served) (hround : RoundRobin entry served ms)
    (hleaves : ∀ m ∈ ms, m.leaves entry = true) (hrun : epollMachine.run s ms = some (t, seen)) :
    Found entry seen ∨ s.Few served ms seen := by
  induction ms generalizing s seen served with
  | nil =>
    cases hrun
    have hlength := hserved.length_lt hstays.watched
    refine .inr ?_
    simp only [Few, numWaits, numAdds]
    omega
  | cons m ms ih =>
    obtain ⟨u, out, seen, hone, hrest, rfl⟩ := Machine.run_cons_eq_some.mp hrun
    have hnext := hstays.step hone (hleaves m List.mem_cons_self)
    have hlater : ∀ m ∈ ms, m.leaves entry = true := fun m hm => hleaves m (List.mem_cons_of_mem _ hm)
    have hquiet (hnot : entry ∉ m.events) (hafter : u.Served entry (m.servedAfter served)) (hout : out = .nothing)
        (hlength : u.interest.length + served.length ≤
          s.interest.length + (m.servedAfter served).length + m.numAdds)
        (htaken : u.roomTaken ≤ s.roomTaken) : Found entry (out :: seen) ∨ s.Few served (m :: ms) (out :: seen) := by
      subst hout
      rcases ih hnext hafter (hround.resolve_left hnot).2 hlater hrest with hfound | hfew
      · exact .inl hfound.cons
      · exact .inr (hfew.quiet hlength htaken)
    cases step_does hone with
    | arrive descriptor => exact hquiet List.not_mem_nil (hserved.congr rfl) rfl (Nat.le_refl _) (Nat.le_refl _)
    | drain descriptor => exact hquiet List.not_mem_nil (hserved.congr rfl) rfl (Nat.le_refl _) (Nat.le_refl _)
    | wake => exact hquiet List.not_mem_nil (hserved.congr rfl) rfl (Nat.le_refl _) (Nat.le_refl _)
    | add waitable key adds hout =>
      obtain ⟨hafter, hlength⟩ := hserved.add waitable key adds
      refine hquiet List.not_mem_nil hafter rfl ?_ ?_
      · simp only [EpollMove.servedAfter, EpollMove.numAdds]
        omega
      · apply Nat.le_of_eq
        unfold EpollState.add
        dsimp only
        split <;> rfl
    | remove waitable hout =>
      obtain ⟨hafter, hlength⟩ := hserved.remove waitable
      exact hquiet List.not_mem_nil hafter rfl (Nat.le_add_right_of_le hlength) (Nat.le_refl _)
    | wait timeout hout => exact hquiet List.not_mem_nil (hserved.congr rfl) rfl (Nat.le_refl _) (Nat.zero_le _)
    | report events timeoutMs hat hreport =>
      by_cases hmem : entry ∈ events
      · have hpending : (s.past true events).Pending entry := ⟨events, rfl, .inr hmem⟩
        rcases hpending.run hstays.notWakeKey hrest with hfound | hnone
        · exact .inl hfound.cons
        · have hlength := hserved.length_lt hstays.watched
          refine .inr ?_
          simp only [Few, numWaits, EpollSeen.numWaits, hnone]
          omega
      · obtain ⟨hfresh, hround⟩ := hround.resolve_left hmem
        obtain ⟨hafter, hlength⟩ := hserved.report hstays hreport hmem hfresh
        rcases ih hnext hafter hround hlater hrest with hfound | hfew
        · exact .inl hfound.cons
        · exact .inr (hfew.report hlength)
    | idle _ timeoutMs hat hidle =>
      have hmem := hstays.mem_ready
      rw [hidle] at hmem
      cases hmem
    | fail timeoutMs hat => exact hquiet List.not_mem_nil (hserved.congr rfl) rfl (Nat.le_refl _) (Nat.zero_le _)
    | handle isWaiting event events hat =>
      obtain ⟨hinterest, hat'⟩ := handle_same s isWaiting event events
      refine hquiet List.not_mem_nil (hserved.congr hinterest) rfl (by rw [hinterest]; exact Nat.le_refl _) ?_
      rw [roomTaken_handling hat, roomTaken_handling hat']
    | leave isWaiting hat =>
      obtain ⟨-, hround⟩ := hround.resolve_left List.not_mem_nil
      rcases ih hnext (hserved.congr rfl) hround hlater hrest with hfound | hfew
      · exact .inl hfound.cons
      · exact .inr (hfew.leave hat)

variable {after : List EpollMove}

/-- A descriptor that stays readable is not passed over for ever: of any waits that have together room for
everything that was watched at their start or added since, one reports its key, whatever else becomes readable in
between. -/
theorem waits_reach_all (hout : s.wait = .out) (hwatched : entry ∈ s.interest)
    (hready : s.readable entry.descriptor = true)
    (hnotWake : entry.descriptor ≠ s.wakeDescriptor) (hkey : entry.key ≠ wakeKey)
    (hafter : epollMachine.run s after = some (t, seen)) (hround : RoundRobin entry [] after)
    (hleaves : ∀ m ∈ after, m.leaves entry = true)
    (hroom : s.interest.length + numAdds after ≤ maxEventsPerWait * numWaits seen) :
    ∃ keys, .returned true keys ∈ seen ∧ entry.key ∈ keys := by
  have hstays : s.Stays entry := ⟨hwatched, hready, hnotWake, hkey⟩
  have hnone : s.Served entry [] := ⟨List.nil_subset _, List.nodup_nil, List.not_mem_nil⟩
  refine (found_or_few hstays hnone hround hleaves hafter).resolve_right ?_
  simp only [Few, roomTaken_out hout, List.length_nil]
  omega

/-- Forty watched descriptors and the wake signal, all readable. -/
def crowdBegins : List EpollMove :=
  (List.range 40).map (fun n => EpollMove.add ⟨n.toUInt64, .socket⟩ n.toUInt64 true) ++ [EpollMove.wake]

def crowd : EpollState :=
  ((epollMachine.run (initializeWith 99 fun _ => true) crowdBegins).map Prod.fst).getD (initializeWith 99 fun _ => true)

/-- What the first wait has no room for, and then others again. -/
def crowdLater : List EpollEntry := crowd.interest.drop maxEventsPerWait ++ crowd.interest.tail.take 23

/-- Two waits in a row. -/
def crowdWaits : List EpollMove :=
  EpollMove.wait none :: EpollMove.report (crowd.interest.take maxEventsPerWait) ::
    (List.replicate 32 EpollMove.handle ++ EpollMove.leave :: EpollMove.wait (some 0) ::
      EpollMove.report crowdLater :: (List.replicate 32 EpollMove.handle ++ [EpollMove.leave]))

theorem waits_reach_all_crowd : ∃ t seen keys,
    epollMachine.run crowd crowdWaits = some (t, seen) ∧ .returned true keys ∈ seen ∧ 39 ∈ keys := by
  have hwaits : (epollMachine.run crowd crowdWaits).isSome = true := by decide +kernel
  have hcounted : ((epollMachine.run crowd crowdWaits).map fun r => numWaits r.2) = some 2 := by decide +kernel
  obtain ⟨⟨t, seen⟩, hafter⟩ := Option.isSome_iff_exists.mp hwaits
  have hroom : crowd.interest.length + numAdds crowdWaits ≤ maxEventsPerWait * numWaits seen := by
    rw [hafter, Option.map_some, Option.some.injEq] at hcounted
    rw [hcounted]
    decide +kernel
  have hwatched : (⟨39, 39⟩ : EpollEntry) ∈ crowd.interest := by decide +kernel
  obtain ⟨keys, hreturned, hkey⟩ := waits_reach_all (by rfl) hwatched (by decide +kernel) (by decide +kernel)
    (by decide) hafter (by decide +kernel) (by decide +kernel) hroom
  exact ⟨t, seen, keys, hafter, hreturned, hkey⟩

end EpollState

end TgeCore.Threading
