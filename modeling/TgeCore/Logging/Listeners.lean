import TgeCore.Library.Calls
import TgeCore.Logging.Delivery

namespace TgeCore.Logging
open Library

variable {hash : String → UInt64} {s t : CLogSystem} {log key : Nat} {c : CLog} {out got : List LogSeen}

namespace CLogSystem

/-- The listeners that a key stands for. -/
def hearing (s : CLogSystem) (key : Nat) : List SListener := s.listeners.filter fun l => l.key = key

theorem hearing_registered (s : CLogSystem) {l : SListener} (hne : l.key ≠ key) :
    ({ s with listeners := s.listeners ++ [l] } : CLogSystem).hearing key = s.hearing key := by
  unfold hearing
  rw [List.filter_append, List.filter_singleton, decide_eq_false hne, cond_false, List.append_nil]

theorem hearing_unregistered (s : CLogSystem) {other : Nat} (hne : other ≠ key) :
    (s.unregisterListener other).hearing key = s.hearing key := by
  unfold hearing unregisterListener
  rw [List.filter_filter]
  refine List.filter_congr fun l hl => ?_
  by_cases hl : l.key = key
  · simp [hl, Ne.symm hne]
  · simp [hl]

theorem foldl_listeners {α : Type} {f : CLogSystem → α → CLogSystem} (hf : ∀ s a, (f s a).listeners = s.listeners)
    (entries : List α) (s : CLogSystem) : (entries.foldl f s).listeners = s.listeners := by
  induction entries generalizing s with
  | nil => rfl
  | cons entry rest ih => exact (ih (f s entry)).trans (hf s entry)

theorem setLevelMask_listeners (s : CLogSystem) (log : Nat) (level : ELogLevel) :
    (s.setLevelMask log level).listeners = s.listeners := by
  unfold setLevelMask
  split
  · rfl
  · rfl

theorem setLogLevel_listeners (hash : String → UInt64) (s : CLogSystem) (name : String) (level : ELogLevel) :
    (s.setLogLevel hash name level).1.listeners = s.listeners := by
  unfold setLogLevel
  split
  · exact s.setLevelMask_listeners _ level
  · rfl

theorem setAllLogLevels_listeners (s : CLogSystem) (level : ELogLevel) :
    (s.setAllLogLevels level).listeners = s.listeners :=
  foldl_listeners (f := fun s (entry : UInt64 × Nat) => s.setLevelMask entry.2 level)
    (fun s entry => s.setLevelMask_listeners entry.2 level) s.loggers s

theorem applyConfig_listeners (hash : String → UInt64) (s : CLogSystem) (config : LogConfig) :
    (s.applyConfig hash config).listeners = s.listeners := by
  refine (foldl_listeners (f := fun s (entry : String × ELogLevel) => (s.setLogLevel hash entry.1 entry.2).1)
    (fun s entry => s.setLogLevel_listeners hash entry.1 entry.2) _ _).trans ?_
  split
  · exact s.setAllLogLevels_listeners _
  · rfl

end CLogSystem

/-- The calls that change what a key stands for. -/
def LogCall.rekeys (key : Nat) : LogCall → Bool
  | .registerListener l _ _ => l.key = key
  | .unregisterListener other => other = key
  | _ => false

/-- A dispatch calls each listener with each message it dispatches. -/
theorem Channels.dispatch_heard (h : Channels hash s) {order : List Nat}
    (hdispatch : s.dispatchListeners order = some (t, out)) (key : Nat) :
    t.hearing key = s.hearing key ∧
      calledOf key out = (dispatched out).flatMap fun msg => (s.hearing key).map fun l => l.shown msg := by
  obtain ⟨-, -, hlisteners, rfl, -⟩ := h.dispatchListeners hdispatch
  refine ⟨by rw [CLogSystem.hearing, hlisteners]; rfl, ?_⟩
  rw [calledOf_flatMap, dispatched_order, List.flatMap_assoc]
  exact List.flatMap_congr fun log hlog => s.calledOf_spoken key log

theorem Channels.step_heard (h : Channels hash s) {call : LogCall} (hkey : call.rekeys key = false)
    (hstep : s.step hash call = some (t, out)) :
    t.hearing key = s.hearing key ∧
      calledOf key out = (dispatched out).flatMap fun msg => (s.hearing key).map fun l => l.shown msg := by
  cases call with
  | terminate =>
    cases hstep
    exact ⟨rfl, rfl⟩
  | destroy log =>
    obtain ⟨u, hdestroy, heq⟩ := Option.map_eq_some_iff.mp hstep
    cases heq
    obtain ⟨c, hc, heq⟩ := Option.map_eq_some_iff.mp hdestroy
    cases heq
    exact ⟨rfl, rfl⟩
  | Initialize config =>
    cases hstep
    exact ⟨congrArg _ (s.applyConfig_listeners hash config), rfl⟩
  | construct name =>
    obtain ⟨u, hconstruct, heq⟩ := Option.map_eq_some_iff.mp hstep
    cases heq
    unfold CLogSystem.construct at hconstruct
    split at hconstruct
    · cases hconstruct
    · cases hconstruct
      exact ⟨rfl, rfl⟩
  | write log level target message now =>
    obtain ⟨c, hc, heq⟩ := Option.map_eq_some_iff.mp hstep
    simp only at heq
    split at heq
    · cases heq
      exact ⟨rfl, rfl⟩
    · cases heq
      exact ⟨rfl, rfl⟩
  | setLogLevel name level =>
    cases hstep
    exact ⟨congrArg _ (s.setLogLevel_listeners hash name level), rfl⟩
  | setAllLogLevels level =>
    cases hstep
    exact ⟨congrArg _ (s.setAllLogLevels_listeners level), rfl⟩
  | setEnabledTargets targets =>
    cases hstep
    exact ⟨rfl, rfl⟩
  | registerListener l history order =>
    obtain ⟨u, seen, hdispatch, -, rfl, rfl⟩ := registerListener_spec hstep
    have hne : l.key ≠ key := of_decide_eq_false hkey
    obtain ⟨hhearing, hcalled⟩ := h.dispatch_heard hdispatch key
    refine ⟨(CLogSystem.hearing_registered _ hne).trans hhearing, ?_⟩
    rw [calledOf_append, dispatched_append, (seen_called 0 key l _).2.2.2, (seen_called 0 0 l _).2.2.1, if_neg hne,
      List.append_nil, List.append_nil]
    exact hcalled
  | unregisterListener other =>
    cases hstep
    exact ⟨s.hearing_unregistered (of_decide_eq_false hkey), rfl⟩
  | dispatchListeners order => exact h.dispatch_heard hstep key
  | listen log l =>
    obtain ⟨u, hlisten, heq⟩ := Option.map_eq_some_iff.mp hstep
    cases heq
    obtain ⟨c, hlog, hset⟩ := Option.bind_eq_some_iff.mp hlisten
    split at hset
    · cases hset
    · cases hset
      exact ⟨rfl, rfl⟩
  | unlisten log other =>
    obtain ⟨u, hlisten, heq⟩ := Option.map_eq_some_iff.mp hstep
    cases heq
    obtain ⟨c, hlog, hset⟩ := Option.map_eq_some_iff.mp hlisten
    cases hset
    exact ⟨rfl, rfl⟩
  | flushTo log other =>
    obtain ⟨seen, hflush, heq⟩ := Option.map_eq_some_iff.mp hstep
    cases heq
    obtain ⟨-, hdispatched, hcalled⟩ := flushTo_quiet hflush key
    rw [hdispatched, hcalled]
    exact ⟨rfl, rfl⟩

/-- A key keeps its meaning, as a key in use cannot be registered and one that is not is not removed. -/
theorem Channels.step_kept (h : Channels hash s) {call : LogCall} (hstep : s.step hash call = some (t, out))
    (hregister : ∀ l history order, call = .registerListener l history order → l.key ≠ key ∨ s.hearing key ≠ [])
    (hremove : call = .unregisterListener key → s.hearing key = []) :
    t.hearing key = s.hearing key ∧
      calledOf key out = (dispatched out).flatMap fun msg => (s.hearing key).map fun l => l.shown msg := by
  cases hrekeys : call.rekeys key with
  | false => exact h.step_heard hrekeys hstep
  | true =>
    cases call with
    | registerListener l history order =>
      have hkey : l.key = key := of_decide_eq_true hrekeys
      obtain ⟨u, seen, -, hfree, -⟩ := registerListener_spec hstep
      rw [hkey] at hfree
      exact absurd hfree ((hregister l history order rfl).resolve_left (not_not_intro hkey))
    | unregisterListener other =>
      obtain rfl : other = key := of_decide_eq_true hrekeys
      cases hstep
      have hnone := hremove rfl
      refine ⟨?_, rfl⟩
      rw [hnone]
      unfold CLogSystem.hearing CLogSystem.unregisterListener
      rw [List.filter_filter, List.filter_eq_nil_iff]
      intro l hl hboth
      simp at hboth
    | _ => cases hrekeys

theorem Channels.run_kept (h : Channels hash s) {calls : List LogCall} {os : List (List LogSeen)}
    (hrun : (logSystem hash).run s calls = some (t, os)) (hstays : ∀ call ∈ calls, call.stays)
    (hregister : ∀ l history order, .registerListener l history order ∈ calls → l.key ≠ key ∨ s.hearing key ≠ [])
    (hremove : .unregisterListener key ∈ calls → s.hearing key = []) :
    t.hearing key = s.hearing key ∧
      calledOf key os.flatten = (dispatched os.flatten).flatMap fun msg => (s.hearing key).map fun l => l.shown msg := by
  induction calls generalizing s os with
  | nil =>
    obtain ⟨rfl, rfl⟩ : s = t ∧ [] = os := by simpa [Machine.run] using hrun
    exact ⟨rfl, rfl⟩
  | cons call rest ih =>
    obtain ⟨u, o, os', hone, hrest, rfl⟩ := Machine.run_cons_eq_some.mp hrun
    obtain ⟨hhearing, hcalled⟩ := h.step_kept hone
      (fun l history order heq => hregister l history order (heq ▸ List.mem_cons_self))
      (fun heq => hremove (heq ▸ List.mem_cons_self))
    obtain ⟨hlast, hlater⟩ := ih (h.step (hstays call List.mem_cons_self) hone) hrest
      (fun call hcall => hstays call (List.mem_cons_of_mem _ hcall))
      (fun l history order hmem => hhearing ▸ hregister l history order (List.mem_cons_of_mem _ hmem))
      (fun hmem => hhearing ▸ hremove (List.mem_cons_of_mem _ hmem))
    rw [hhearing] at hlater
    refine ⟨hlast.trans hhearing, ?_⟩
    rw [List.flatten_cons, calledOf_append, dispatched_append, List.flatMap_append, hcalled, hlater]

/-- The books of a stretch of calls that began with nothing pending. -/
structure Stretch (hash : String → UInt64) (s : CLogSystem) (got : List LogSeen) : Prop where
  channels : Channels hash s
  pending : ∀ log c, s.log? log = some c → acceptedOf log got = dispatchedOf log got ++ c.pendingDispatch
  absent : ∀ log, s.log? log = none → acceptedOf log got = [] ∧ dispatchedOf log got = []
  mixed : Mixes SLogMessage.channelName s.nameOf (fun log => dispatchedOf log got) (dispatched got)

namespace Stretch

theorem start (h : Channels hash s) (hidle : ∀ log c, s.log? log = some c → c.pendingDispatch = []) :
    Stretch hash s [] := by
  refine ⟨h, fun log c hlog => ?_, fun log hlog => ⟨rfl, rfl⟩, .nil⟩
  rw [hidle log c hlog]
  rfl

theorem step (h : Stretch hash s got) {call : LogCall} (hcall : call.stays)
    (hstep : s.step hash call = some (t, out)) : Stretch hash t (got ++ out) := by
  have hturn := h.channels.step_turn hcall hstep
  have hnext := h.channels.step hcall hstep
  refine ⟨hnext, fun log c' hlog => ?_, fun log hlog => ?_, ?_⟩
  · rw [acceptedOf_append, dispatchedOf_append]
    cases hbefore : s.log? log with
    | some c =>
      obtain ⟨d, hd, hpasses⟩ := hturn.live log c hbefore
      cases hlog.symm.trans hd
      rw [h.pending log c hbefore, List.append_assoc, hpasses.pending, List.append_assoc]
    | none =>
      obtain ⟨haccepted, hdispatched⟩ := h.absent log hbefore
      obtain ⟨haccepted', hdispatched'⟩ := hturn.absent log hbefore
      rw [haccepted, hdispatched, haccepted', hdispatched', (hturn.fresh log c' hlog hbefore).1]
      rfl
  · have hbefore : s.log? log = none := by
      cases hbefore : s.log? log with
      | none => rfl
      | some c =>
        obtain ⟨d, hd, -⟩ := hturn.live log c hbefore
        rw [hlog] at hd
        cases hd
    rw [acceptedOf_append, dispatchedOf_append, (h.absent log hbefore).1, (h.absent log hbefore).2,
      (hturn.absent log hbefore).1, (hturn.absent log hbefore).2]
    exact ⟨rfl, rfl⟩
  · rw [dispatched_append]
    simp only [dispatchedOf_append]
    refine (h.mixed.append hturn.mixed).extend (fun log name hname => ?_) (fun log other name => hnext.nameOf_inj)
      fun log hname => ?_
    · obtain ⟨c, hc, rfl⟩ := CLogSystem.nameOf_eq_some.mp hname
      obtain ⟨d, hd, hpasses⟩ := hturn.live log c hc
      exact CLogSystem.nameOf_eq_some.mpr ⟨d, hd, hpasses.name⟩
    · have hbefore : s.log? log = none := Option.map_eq_none_iff.mp hname
      rw [(h.absent log hbefore).2, (hturn.absent log hbefore).2]
      rfl

theorem run {calls : List LogCall} {os : List (List LogSeen)} (h : Stretch hash s [])
    (hcalls : ∀ call ∈ calls, call.stays) (hrun : (logSystem hash).run s calls = some (t, os)) :
    Stretch hash t os.flatten := by
  refine Machine.run_invariant (fun (calls : List LogCall) os s =>
    (∀ call ∈ calls, call.stays = true) → Stretch hash s os.flatten) [] [] ?_ (fun _ => h) hrun hcalls
  intro calls os s call t out hinv hstep hstays
  rw [List.flatten_append, List.flatten_singleton]
  exact (hinv fun call hcall => hstays call (List.mem_append_left _ hcall)).step
    (hstays call (List.mem_append_right _ List.mem_cons_self)) hstep

end Stretch

/-- The times of the calls of Write. -/
def writeTimes (calls : List LogCall) : List Nat :=
  calls.filterMap fun
    | .write _ _ _ _ now => some now.timestamp
    | _ => none

/-- The name that a channel gives its messages. -/
def CLogSystem.channelName (s : CLogSystem) (log : Nat) : String := ((s.log? log).map CLog.name).getD ""

/-- The message of a call of Write to the channel that is for its listeners: the log system is
initialized, the channel's mask has the level, and what is left of the target has the listeners. -/
def CLogSystem.listened (s : CLogSystem) (log : Nat) : LogCall → List SLogMessage
  | .write other level target message now =>
    if other = log ∧ ∃ c, s.log? log = some c ∧ s.initialized ∧ level &&& c.levelMask ≠ .None ∧
        (target &&& s.enabledTargets) &&& .Listeners ≠ .None then
      [{ timestamp := now.timestamp, level, target := target &&& s.enabledTargets, channelName := s.channelName log
         message, formattedTimestamp := now.formattedTimestamp }]
    else []
  | _ => []

/-- A call accepts the message that it writes for the listeners, and no other. -/
theorem Channels.step_accepted (h : Channels hash s) {call : LogCall} (hstep : s.step hash call = some (t, out))
    (log : Nat) : acceptedOf log out = s.listened log call := by
  cases call with
  | terminate =>
    cases hstep
    rfl
  | destroy log =>
    obtain ⟨u, hdestroy, heq⟩ := Option.map_eq_some_iff.mp hstep
    cases heq
    rfl
  | Initialize config =>
    cases hstep
    rfl
  | construct name =>
    obtain ⟨u, hconstruct, heq⟩ := Option.map_eq_some_iff.mp hstep
    cases heq
    rfl
  | write other level target message now =>
    obtain ⟨c, hc, heq⟩ := Option.map_eq_some_iff.mp hstep
    simp only at heq
    split at heq
    · rename_i htaken
      cases heq
      by_cases hother : other = log
      · subst hother
        rw [CLogSystem.listened, if_pos ⟨rfl, c, hc, htaken⟩]
        simp [acceptedOf, CLogSystem.channelName, hc]
      · rw [CLogSystem.listened, if_neg fun hin => hother hin.1]
        simp [acceptedOf, hother]
    · rename_i htaken
      cases heq
      rw [CLogSystem.listened, if_neg ?_]
      · rfl
      · rintro ⟨rfl, d, hd, hin⟩
        obtain rfl : c = d := Option.some.inj (hc.symm.trans hd)
        exact htaken hin
  | setLogLevel name level =>
    cases hstep
    rfl
  | setAllLogLevels level =>
    cases hstep
    rfl
  | setEnabledTargets targets =>
    cases hstep
    rfl
  | registerListener l history order =>
    obtain ⟨u, seen, hdispatch, -, rfl, rfl⟩ := registerListener_spec hstep
    obtain ⟨-, -, -, rfl, -⟩ := h.dispatchListeners hdispatch
    rw [acceptedOf_append, acceptedOf_order, (seen_called log 0 l _).1]
    rfl
  | unregisterListener other =>
    cases hstep
    rfl
  | dispatchListeners order =>
    obtain ⟨-, -, -, rfl, -⟩ := h.dispatchListeners hstep
    rw [acceptedOf_order]
    rfl
  | listen log l =>
    obtain ⟨u, hlisten, heq⟩ := Option.map_eq_some_iff.mp hstep
    cases heq
    rfl
  | unlisten log other =>
    obtain ⟨u, hlisten, heq⟩ := Option.map_eq_some_iff.mp hstep
    cases heq
    rfl
  | flushTo other key =>
    obtain ⟨seen, hflush, heq⟩ := Option.map_eq_some_iff.mp hstep
    cases heq
    rw [(flushTo_quiet hflush log).1]
    rfl

/-- What a channel has accepted in a run is what was written to it for the listeners. -/
theorem Channels.run_accepted (h : Channels hash s) {calls : List LogCall} {os : List (List LogSeen)}
    (hrun : (logSystem hash).run s calls = some (t, os)) (hstays : ∀ call ∈ calls, call.stays) (log : Nat) :
    acceptedOf log os.flatten = (logSystem hash).gathered (fun s => s.listened log) s calls := by
  have haccepted : acceptedOf log os.flatten = os.flatMap (acceptedOf log) := by
    rw [← List.flatMap_id, acceptedOf_flatMap]
    rfl
  rw [haccepted]
  exact Machine.run_gathered (Channels hash) (P := fun call => call.stays)
    (fun s call t out h hcall hstep => ⟨h.step hcall hstep, h.step_accepted hstep log⟩) h hstays hrun

/-- Only Write accepts a message, and it stamps it with its own time. -/
theorem Channels.step_stamped (h : Channels hash s) {call : LogCall} (hstep : s.step hash call = some (t, out))
    (log : Nat) : List.Sublist ((acceptedOf log out).map SLogMessage.timestamp) (writeTimes [call]) := by
  rw [h.step_accepted hstep]
  cases call with
  | write other level target message now =>
    rw [CLogSystem.listened]
    split
    · exact List.Sublist.refl _
    · exact List.nil_sublist _
  | _ => exact List.nil_sublist _

theorem popFront_append (xs ys : List SLogMessage) : popFront (popFront xs ++ ys) = popFront (xs ++ ys) := by
  unfold popFront
  rw [← List.drop_append_of_le_length (Nat.sub_le _ _), List.drop_drop]
  refine congrArg (fun k => (xs ++ ys).drop k) ?_
  rw [List.length_drop, List.length_append]
  generalize MaxMessages = limit
  omega

/-- The log system from its start on: each channel keeps its last messages, in the order of time. -/
structure Recorded (hash : String → UInt64) (calls : List LogCall) (s : CLogSystem) (got : List LogSeen) : Prop where
  stretch : Stretch hash s got
  history : ∀ log c, s.log? log = some c → c.history = popFront (dispatchedOf log got)
  stamped : ∀ log, List.Sublist ((acceptedOf log got).map SLogMessage.timestamp) (writeTimes calls)

namespace Recorded
variable {calls : List LogCall}

theorem start : Recorded hash [] {} [] := by
  have hnone : ∀ log c, ({} : CLogSystem).log? log ≠ some c := by
    intro log c hlog
    cases CLogSystem.log?_eq_some.mp hlog
  refine ⟨.start .start fun log c hlog => absurd hlog (hnone log c), fun log c hlog => absurd hlog (hnone log c), ?_⟩
  intro log
  exact List.nil_sublist _

theorem step (h : Recorded hash calls s got) {call : LogCall} (hcall : call.stays)
    (hstep : s.step hash call = some (t, out)) : Recorded hash (calls ++ [call]) t (got ++ out) := by
  have hturn := h.stretch.channels.step_turn hcall hstep
  refine ⟨h.stretch.step hcall hstep, fun log c' hlog => ?_, fun log => ?_⟩
  · rw [dispatchedOf_append]
    cases hbefore : s.log? log with
    | some c =>
      obtain ⟨d, hd, hpasses⟩ := hturn.live log c hbefore
      cases hlog.symm.trans hd
      rw [hpasses.history (h.stretch.channels.bounded log c hbefore), h.history log c hbefore, popFront_append]
    | none =>
      rw [(h.stretch.absent log hbefore).2, (hturn.absent log hbefore).2]
      exact (hturn.fresh log c' hlog hbefore).2
  · rw [acceptedOf_append, List.map_append, writeTimes, List.filterMap_append]
    exact (h.stamped log).append (h.stretch.channels.step_stamped hstep log)

theorem run {os : List (List LogSeen)} (hcalls : ∀ call ∈ calls, call.stays)
    (hrun : (logSystem hash).run {} calls = some (s, os)) : Recorded hash calls s os.flatten := by
  refine Machine.run_invariant (fun (calls : List LogCall) os s =>
    (∀ call ∈ calls, call.stays = true) → Recorded hash calls s os.flatten) [] [] ?_ (fun _ => .start) hrun hcalls
  intro calls os s call t out hinv hstep hstays
  rw [List.flatten_append, List.flatten_singleton]
  exact (hinv fun call hcall => hstays call (List.mem_append_left _ hcall)).step
    (hstays call (List.mem_append_right _ List.mem_cons_self)) hstep

end Recorded

theorem SListener.shown_channelName (l : SListener) (msg : SLogMessage) : (l.shown msg).channelName = msg.channelName := by
  unfold SListener.shown
  split
  · rfl
  · rfl

theorem SListener.shown_timestamp (l : SListener) (msg : SLogMessage) : (l.shown msg).timestamp = msg.timestamp := by
  unfold SListener.shown
  split
  · rfl
  · rfl

theorem flatMap_shown (l : SListener) (msgs : List SLogMessage) :
    (msgs.flatMap fun msg => [l].map fun l => l.shown msg) = msgs.map l.shown := by
  rw [List.map_eq_flatMap]
  rfl

theorem rtake_max (msgs : List SLogMessage) : msgs.rtake MaxMessages = popFront msgs := by
  unfold List.rtake popFront
  rfl

theorem Channels.dispatch (h : Channels hash s) {order : List Nat}
    (hdispatch : s.dispatchListeners order = some (t, out)) : Channels hash t := by
  have hcall : (LogCall.dispatchListeners order).stays := rfl
  exact h.step hcall hdispatch

section Replay
variable {calls : List LogCall} {order : List Nat}

/-- The history that a dispatch leaves is the last of what each channel has accepted. -/
theorem Recorded.replay (h : Recorded hash calls s got) (hdispatch : s.dispatchListeners order = some (t, out))
    (hclock : (writeTimes calls).Pairwise (· ≤ ·)) :
    Mixes SLogMessage.channelName t.nameOf (fun log => (acceptedOf log got).rtake MaxMessages) (t.replay order) ∧
      (t.replay order).Pairwise fun a b => a.timestamp ≤ b.timestamp := by
  have hnext := h.stretch.channels.dispatch hdispatch
  obtain ⟨hnodup, hmem, -, -, hlogs⟩ := h.stretch.channels.dispatchListeners hdispatch
  have hhistory : ∀ log c, t.log? log = some c → c.history = (acceptedOf log got).rtake MaxMessages := by
    intro log c hlog
    rw [hlogs] at hlog
    obtain ⟨d, hd, rfl⟩ := Option.map_eq_some_iff.mp hlog
    rw [rtake_max, h.stretch.pending log d hd, ← popFront_append (dispatchedOf log got), ← h.history log d hd]
  have hlast : ∀ log name, t.nameOf log = some name →
      ((t.log? log).map CLog.history).getD [] = (acceptedOf log got).rtake MaxMessages := by
    intro log name hname
    obtain ⟨c, hc, -⟩ := CLogSystem.nameOf_eq_some.mp hname
    rw [hc]
    exact hhistory log c hc
  have hsorted : ∀ log name, t.nameOf log = some name → ((acceptedOf log got).rtake MaxMessages).Pairwise
      fun a b => decide (a.timestamp ≤ b.timestamp) = true := by
    intro log name hname
    have htimes := List.pairwise_map.mp (hclock.sublist (h.stamped log))
    exact (htimes.sublist (List.drop_sublist _ _)).imp decide_eq_true
  have hmixes : Mixes SLogMessage.channelName t.nameOf (fun log => ((t.log? log).map CLog.history).getD [])
      (order.flatMap fun log => ((t.log? log).map CLog.history).getD []) := by
    refine .flatMap hnodup (fun log => ?_) (fun log name hname msg hmsg => ?_) fun log other name => hnext.nameOf_inj
    · rw [hmem, CLogSystem.nameOf, Option.isSome_map, hlogs, Option.isSome_map]
    · obtain ⟨c, hc, rfl⟩ := CLogSystem.nameOf_eq_some.mp hname
      rw [hc] at hmsg
      exact hnext.labelled log c hc msg (List.mem_append_left _ hmsg)
  have htrans : ∀ a b c : SLogMessage, decide (a.timestamp ≤ b.timestamp) = true →
      decide (b.timestamp ≤ c.timestamp) = true → decide (a.timestamp ≤ c.timestamp) = true := by
    intro a b c hab hbc
    exact decide_eq_true (Nat.le_trans (of_decide_eq_true hab) (of_decide_eq_true hbc))
  have htotal : ∀ a b : SLogMessage, (decide (a.timestamp ≤ b.timestamp) || decide (b.timestamp ≤ a.timestamp)) = true := by
    intro a b
    rw [Bool.or_eq_true, decide_eq_true_iff, decide_eq_true_iff]
    exact Nat.le_total _ _
  refine ⟨(hmixes.congr hlast).mergeSort htrans htotal hsorted, ?_⟩
  exact (List.pairwise_mergeSort htrans htotal _).imp of_decide_eq_true

end Replay

/-- What a system-wide listener is called with: at its registration (`o`, after `os`), while it
stays registered (`os'`), by the dispatch after that, and once it is removed. Its calls are the
messages of the live channels, each channel's in its own order, and no others. The messages
accepted before (`pre`) and after it (`mid`) are those that Write is called with for listeners. -/
structure HearsEachOnce (hash : String → UInt64) (l : SListener) (history : EHistory) (pre : List LogCall)
    (os : List (List LogSeen)) (o : List LogSeen) (t : CLogSystem) (mid : List LogCall) (os' : List (List LogSeen))
    (u : CLogSystem) : Prop where
  wroteBefore : ∀ log, acceptedOf log os.flatten = (logSystem hash).gathered (fun s => s.listened log) {} pre
  wroteAfter : ∀ log, acceptedOf log os'.flatten = (logSystem hash).gathered (fun s => s.listened log) t mid
  acceptedNone : ∀ log, acceptedOf log o = []
  flushed : history = .flush → Mixes SLogMessage.channelName t.nameOf
    (fun log => ((acceptedOf log os.flatten).rtake MaxMessages).map l.shown) (calledOf l.key o)
  inTime : (calledOf l.key o).Pairwise fun a b => a.timestamp ≤ b.timestamp
  skipped : history = .skip → calledOf l.key o = []
  live : Mixes SLogMessage.channelName u.nameOf (fun log => (dispatchedOf log os'.flatten).map l.shown)
    (calledOf l.key os'.flatten)
  waiting : ∀ log c, u.log? log = some c →
    acceptedOf log os'.flatten = dispatchedOf log os'.flatten ++ c.pendingDispatch
  caughtUp : ∀ order v o', u.dispatchListeners order = some (v, o') →
    Mixes SLogMessage.channelName v.nameOf (fun log => (acceptedOf log os'.flatten).map l.shown)
      (calledOf l.key (os'.flatten ++ o'))
  removed : ∀ after v os'', (∀ call ∈ after, call.stays ∧ ∀ other history order,
      call = .registerListener other history order → other.key ≠ l.key) →
    (logSystem hash).run (u.unregisterListener l.key) after = some (v, os'') → calledOf l.key os''.flatten = []

/-- Over every run of the log system in which no channel goes away, and whatever the time between
its registration and its removal, a listener hears each message once. -/
theorem listener_hears_each_once {pre mid : List LogCall} {l : SListener} {history : EHistory} {order : List Nat}
    {u : CLogSystem} {os os' : List (List LogSeen)}
    (hpre : (logSystem hash).run {} pre = some (s, os))
    (hregister : s.step hash (.registerListener l history order) = some (t, out))
    (hmid : (logSystem hash).run t mid = some (u, os'))
    (hstays : ∀ call ∈ pre ++ mid, call.stays) (hkept : .unregisterListener l.key ∉ mid)
    (hclock : (writeTimes pre).Pairwise (· ≤ ·)) : HearsEachOnce hash l history pre os out t mid os' u := by
  have hrecorded := Recorded.run (fun call hcall => hstays call (List.mem_append_left _ hcall)) hpre
  have hmidStays : ∀ call ∈ mid, call.stays := fun call hcall => hstays call (List.mem_append_right _ hcall)
  have hchannels : Channels hash t := by
    have hcall : (LogCall.registerListener l history order).stays := rfl
    exact hrecorded.stretch.channels.step hcall hregister
  obtain ⟨w, seen, hdispatch, hfree, rfl, rfl⟩ := registerListener_spec hregister
  obtain ⟨-, -, -, -, hlogs⟩ := hrecorded.stretch.channels.dispatchListeners hdispatch
  obtain ⟨hreplay, hsorted⟩ := hrecorded.replay hdispatch hclock
  obtain ⟨hhearing, hseen⟩ := hrecorded.stretch.channels.dispatch_heard hdispatch l.key
  have hnobody : s.hearing l.key = [] := hfree
  have hsilent : calledOf l.key seen = [] := by
    rw [hseen, hnobody, List.flatMap_eq_nil_iff]
    intro msg hmsg
    rfl
  have hfirst : calledOf l.key (seen ++ (if history = .flush then w.replay order else []).map
      fun msg => LogSeen.called l.key (l.shown msg)) = (if history = .flush then w.replay order else []).map l.shown := by
    rw [calledOf_append, hsilent, (seen_called 0 l.key l _).2.2.2, if_pos rfl, List.nil_append]
  have hnow : CLogSystem.hearing { w with listeners := w.listeners ++ [l] } l.key = [l] := by
    unfold CLogSystem.hearing
    rw [List.filter_append, List.filter_singleton, decide_eq_true rfl, cond_true]
    exact congrArg (· ++ [l]) (hhearing.trans hnobody)
  have hstretch : Stretch hash u os'.flatten := by
    refine Stretch.run (.start hchannels fun log c hlog => ?_) hmidStays hmid
    have hdone := (hlogs log).symm.trans hlog
    obtain ⟨d, -, rfl⟩ := Option.map_eq_some_iff.mp hdone
    rfl
  obtain ⟨hstill, hmidCalled⟩ := hchannels.run_kept hmid hmidStays
    (fun other _ _ _ => .inr (by rw [hnow]; exact List.cons_ne_nil _ _)) (fun hmem => absurd hmem hkept)
  rw [hnow] at hstill
  rw [hnow, flatMap_shown] at hmidCalled
  have hstart : Channels hash {} := .start
  exact {
    wroteBefore := hstart.run_accepted hpre fun call hcall => hstays call (List.mem_append_left _ hcall)
    wroteAfter := hchannels.run_accepted hmid hmidStays
    acceptedNone := hrecorded.stretch.channels.step_accepted hregister
    flushed := by
      rintro rfl
      rw [hfirst]
      exact hreplay.map l.shown_channelName
    inTime := by
      rw [hfirst, List.pairwise_map]
      simp only [l.shown_timestamp]
      split
      · exact hsorted
      · exact List.Pairwise.nil
    skipped := by
      rintro rfl
      rw [hfirst]
      rfl
    live := by
      rw [hmidCalled]
      exact hstretch.mixed.map l.shown_channelName
    waiting := hstretch.pending
    caughtUp := by
      intro order' v o' hcaught
      have hlast := hstretch.channels.dispatchListeners hcaught
      have hafter : Stretch hash v (os'.flatten ++ o') := by
        have hcall : (LogCall.dispatchListeners order').stays := rfl
        exact hstretch.step hcall hcaught
      have hcalled : calledOf l.key (os'.flatten ++ o') = (dispatched (os'.flatten ++ o')).map l.shown := by
        rw [calledOf_append, dispatched_append, List.map_append, hmidCalled, (hstretch.channels.dispatch_heard hcaught _).2,
          hstill, flatMap_shown]
      rw [hcalled]
      refine (hafter.mixed.map l.shown_channelName).congr fun log name hname => ?_
      obtain ⟨c, hc, -⟩ := CLogSystem.nameOf_eq_some.mp hname
      have hbooks := hafter.pending log c hc
      rw [hlast.2.2.2.2] at hc
      obtain ⟨d, -, rfl⟩ := Option.map_eq_some_iff.mp hc
      rw [acceptedOf_append, hlast.2.2.2.1, acceptedOf_order, List.append_nil, List.append_nil] at hbooks
      rw [hbooks, hlast.2.2.2.1]
    removed := by
      intro after v os'' hcalls hafter
      have hchannels' : Channels hash (u.unregisterListener l.key) := by
        have hcall : (LogCall.unregisterListener l.key).stays := rfl
        exact hstretch.channels.step hcall rfl
      have hgone : (u.unregisterListener l.key).hearing l.key = [] := by
        unfold CLogSystem.hearing CLogSystem.unregisterListener
        rw [List.filter_filter, List.filter_eq_nil_iff]
        intro other hother hboth
        simp at hboth
      rw [(hchannels'.run_kept hafter (fun call hcall => (hcalls call hcall).1)
        (fun other history order hmem => .inl ((hcalls _ hmem).2 other history order rfl)) (fun _ => hgone)).2, hgone,
        List.flatMap_eq_nil_iff]
      intro msg hmsg
      rfl }

/-- A console that gets the two messages before it and the one after it. -/
theorem listener_hears_each_once_console :
    ∃ s os t out u os',
      (logSystem lengthHash).run {} [.construct "Core", .construct "Editor", .Initialize {},
        .write 1 .Error .All "no asset" ⟨3, "3"⟩, .dispatchListeners [0, 1], .write 0 .Info .All "up" ⟨5, "5"⟩] = some (s, os) ∧
      s.step lengthHash (.registerListener ⟨7, .raw⟩ .flush [0, 1]) = some (t, out) ∧
      (logSystem lengthHash).run t [.write 0 .Info .All "down" ⟨8, "8"⟩, .dispatchListeners [1, 0]] = some (u, os') ∧
      calledOf 7 out = [⟨3, .Error, .All, "Editor", "no asset", "3"⟩, ⟨5, .Info, .All, "Core", "up", "5"⟩] ∧
      calledOf 7 os'.flatten = [⟨8, .Info, .All, "Core", "down", "8"⟩] ∧
      HearsEachOnce lengthHash ⟨7, .raw⟩ .flush [.construct "Core", .construct "Editor", .Initialize {},
        .write 1 .Error .All "no asset" ⟨3, "3"⟩, .dispatchListeners [0, 1], .write 0 .Info .All "up" ⟨5, "5"⟩] os out t
        [.write 0 .Info .All "down" ⟨8, "8"⟩, .dispatchListeners [1, 0]] os' u := by
  let asset : SLogMessage := ⟨3, .Error, .All, "Editor", "no asset", "3"⟩
  let up : SLogMessage := ⟨5, .Info, .All, "Core", "up", "5"⟩
  let down : SLogMessage := ⟨8, .Info, .All, "Core", "down", "8"⟩
  let booted : CLogSystem :=
    { initialized := true, loggers := [(4, 0), (6, 1)]
      logs := [some { name := "Core", pendingDispatch := [up] }, some { name := "Editor", history := [asset] }] }
  let flushed : CLogSystem :=
    { booted with logs := [some { name := "Core", history := [up] }, some { name := "Editor", history := [asset] }] }
  have hpre : (logSystem lengthHash).run {} [.construct "Core", .construct "Editor", .Initialize {},
      .write 1 .Error .All "no asset" ⟨3, "3"⟩, .dispatchListeners [0, 1], .write 0 .Info .All "up" ⟨5, "5"⟩] =
      some (booted, [[], [], [], [.accepted 1 asset], [.dispatched 1 asset], [.accepted 0 up]]) := by decide +kernel
  have hdispatch : booted.dispatchListeners [0, 1] = some (flushed, [.dispatched 0 up]) := by decide +kernel
  have hreplay : flushed.replay [0, 1] = [asset, up] := by
    have hboth : ([0, 1].flatMap fun log => ((flushed.log? log).map CLog.history).getD []) = [up, asset] := by
      decide +kernel
    unfold CLogSystem.replay
    rw [hboth]
    simp [up, asset, List.mergeSort]
  have hregister : booted.step lengthHash (.registerListener ⟨7, .raw⟩ .flush [0, 1]) =
      some ({ flushed with listeners := [⟨7, .raw⟩] }, [.dispatched 0 up, .called 7 asset, .called 7 up]) := by
    have hall : booted.registerListener ⟨7, .raw⟩ .flush [0, 1] =
        (booted.dispatchListeners [0, 1]).map fun next => ({ next.1 with listeners := next.1.listeners ++ [⟨7, .raw⟩] },
          next.2 ++ (next.1.replay [0, 1]).map fun msg => LogSeen.called 7 msg) := rfl
    refine hall.trans ?_
    rw [hdispatch, Option.map_some, hreplay]
    rfl
  have hmid : (logSystem lengthHash).run { flushed with listeners := [⟨7, .raw⟩] }
      [.write 0 .Info .All "down" ⟨8, "8"⟩, .dispatchListeners [1, 0]] =
      some ({ flushed with
          listeners := [⟨7, .raw⟩]
          logs := [some { name := "Core", history := [up, down] }, some { name := "Editor", history := [asset] }] },
        [[.accepted 0 down], [.dispatched 0 down, .called 7 down]]) := by decide +kernel
  exact ⟨_, _, _, _, _, _, hpre, hregister, hmid, by decide +kernel, by decide +kernel,
    listener_hears_each_once hpre hregister hmid (by decide +kernel) (by decide +kernel) (by decide +kernel)⟩

end TgeCore.Logging
