import TgeCore.Logging.Listeners

namespace TgeCore.Logging
open Library

variable {hash : String → UInt64} {s t : CLogSystem} {log : Nat} {l : SListener} {out : List LogSeen} {order : List Nat}

/-- All that is pending in the channels of the registry. -/
def waiting (s : CLogSystem) : List SLogMessage := (s.loggers.map Prod.snd).flatMap s.pendingOf

/-- Nothing but the channels has changed. -/
def OnlyLogs (s t : CLogSystem) : Prop := t = { s with logs := t.logs }

namespace OnlyLogs

theorem refl (s : CLogSystem) : OnlyLogs s s := rfl

theorem trans {u : CLogSystem} (h : OnlyLogs s t) (h' : OnlyLogs t u) : OnlyLogs s u := by
  unfold OnlyLogs at h h' ⊢
  rw [h'.trans (congrArg (fun v : CLogSystem => { v with logs := u.logs }) h)]

theorem setLog (s : CLogSystem) (log : Nat) (c : CLog) : OnlyLogs s (s.setLog log c) := rfl

theorem foldl {α : Type} {f : CLogSystem → α → CLogSystem} (hf : ∀ s a, OnlyLogs s (f s a)) (entries : List α)
    (s : CLogSystem) : OnlyLogs s (entries.foldl f s) := by
  induction entries generalizing s with
  | nil => exact .refl s
  | cons entry rest ih => exact (hf s entry).trans (ih (f s entry))

theorem setLevelMask (s : CLogSystem) (log : Nat) (level : ELogLevel) : OnlyLogs s (s.setLevelMask log level) := by
  unfold CLogSystem.setLevelMask
  split
  · exact .setLog s log _
  · exact .refl s

theorem setLogLevel (hash : String → UInt64) (s : CLogSystem) (name : String) (level : ELogLevel) :
    OnlyLogs s (s.setLogLevel hash name level).1 := by
  unfold CLogSystem.setLogLevel
  split
  · exact .setLevelMask s _ level
  · exact .refl s

theorem setAllLogLevels (s : CLogSystem) (level : ELogLevel) : OnlyLogs s (s.setAllLogLevels level) :=
  .foldl (f := fun s (entry : UInt64 × Nat) => s.setLevelMask entry.2 level)
    (fun s entry => .setLevelMask s entry.2 level) s.loggers s

theorem applyConfig (hash : String → UInt64) (s : CLogSystem) (config : LogConfig) :
    OnlyLogs s (s.applyConfig hash config) := by
  refine OnlyLogs.trans ?_ (.foldl (f := fun s (entry : String × ELogLevel) => (s.setLogLevel hash entry.1 entry.2).1)
    (fun s entry => .setLogLevel hash s entry.1 entry.2) _ _)
  split
  · exact .setAllLogLevels s _
  · exact .refl s

theorem dispatchPending (s : CLogSystem) (log : Nat) : OnlyLogs s (s.dispatchPending log).1 := by
  unfold CLogSystem.dispatchPending
  split
  · exact .setLog s log _
  · exact .refl s

theorem dispatchAll (s : CLogSystem) (order : List Nat) : OnlyLogs s (s.dispatchAll order).1 := by
  induction order generalizing s with
  | nil => exact .refl s
  | cons log rest ih => exact (OnlyLogs.dispatchPending s log).trans (ih (s.dispatchPending log).1)

theorem loggers (h : OnlyLogs s t) : t.loggers = s.loggers :=
  (congrArg CLogSystem.loggers h).trans rfl

theorem listeners (h : OnlyLogs s t) : t.listeners = s.listeners :=
  (congrArg CLogSystem.listeners h).trans rfl

theorem initialized (h : OnlyLogs s t) : t.initialized = s.initialized :=
  (congrArg CLogSystem.initialized h).trans rfl

theorem enabledTargets (h : OnlyLogs s t) : t.enabledTargets = s.enabledTargets :=
  (congrArg CLogSystem.enabledTargets h).trans rfl

theorem hearing (h : OnlyLogs s t) (key : Nat) : t.hearing key = s.hearing key := by
  unfold CLogSystem.hearing
  rw [h.listeners]

end OnlyLogs

/-- A call hands the messages that it takes from the channels to a listener, and leaves the rest. -/
structure Relays (l : SListener) (s t : CLogSystem) (out : List LogSeen) : Prop where
  initialized : s.initialized = true → t.initialized = true
  targets : t.enabledTargets = s.enabledTargets
  hearing : t.hearing l.key = s.hearing l.key
  moved : ((waiting s).map l.shown).Perm (calledOf l.key out ++ (waiting t).map l.shown)

section Waiting

theorem waiting_still (hkeeps : t.loggers = s.loggers) (h : Still s t) : waiting t = waiting s := by
  unfold waiting
  rw [hkeeps]
  refine List.flatMap_congr fun log hlog => ?_
  have hsame := congrArg (Option.map fun entry => entry.2.1) (h log)
  rw [Option.map_map, Option.map_map] at hsame
  exact congrArg (fun pending => pending.getD []) hsame

theorem Relays.quiet (hloggers : t.loggers = s.loggers) (hstill : Still s t)
    (hinitialized : s.initialized = true → t.initialized = true) (htargets : t.enabledTargets = s.enabledTargets)
    (hhearing : t.hearing l.key = s.hearing l.key) (hout : calledOf l.key out = []) : Relays l s t out := by
  refine ⟨hinitialized, htargets, hhearing, ?_⟩
  rw [hout, waiting_still hloggers hstill]
  exact List.Perm.refl _

theorem Relays.onlyLogs (h : OnlyLogs s t) (hstill : Still s t) (hout : calledOf l.key out = []) : Relays l s t out :=
  .quiet h.loggers hstill (fun hs => h.initialized.trans hs) h.enabledTargets
    (h.hearing l.key) hout

/-- A listener that is alone under its key hears each message of a channel once. -/
theorem called_shown (hhearing : s.hearing l.key = [l]) (log : Nat) :
    calledOf l.key (s.spoken log) = (s.pendingOf log).map l.shown := by
  rw [CLogSystem.calledOf_spoken]
  have hlisteners : (s.listeners.filter fun other => other.key = l.key) = [l] := hhearing
  rw [hlisteners]
  exact flatMap_shown l _

/-- Where one registered channel changes, the others wait as before. -/
theorem waiting_split (h : Indexed hash s) (hlog : log ∈ s.loggers.map Prod.snd) (hloggers : t.loggers = s.loggers)
    (hother : ∀ other, log ≠ other → t.log? other = s.log? other) :
    ∃ rest, (waiting s).Perm (s.pendingOf log ++ rest) ∧ (waiting t).Perm (t.pendingOf log ++ rest) := by
  have hsplit := List.perm_cons_erase hlog
  refine ⟨((s.loggers.map Prod.snd).erase log).flatMap s.pendingOf, hsplit.flatMap_right s.pendingOf, ?_⟩
  have hrest : ∀ other ∈ (s.loggers.map Prod.snd).erase log, t.pendingOf other = s.pendingOf other := by
    intro other hmem
    have hne : log ≠ other := by
      rintro rfl
      exact h.nodup.not_mem_erase hmem
    unfold CLogSystem.pendingOf
    rw [hother other hne]
  unfold waiting
  rw [hloggers, ← List.flatMap_congr hrest]
  exact hsplit.flatMap_right t.pendingOf

theorem Relays.turn (h : Indexed hash s) (hhearing : s.hearing l.key = [l])
    (hlog : log ∈ s.loggers.map Prod.snd) :
    Relays l s (s.dispatchPending log).1 (s.dispatchPending log).2 := by
  have honly := OnlyLogs.dispatchPending s log
  refine ⟨fun hs => honly.initialized.trans hs, honly.enabledTargets, honly.hearing l.key, ?_⟩
  obtain ⟨c, hc⟩ := h.live hlog
  obtain ⟨rest, hbefore, hafter⟩ := waiting_split h hlog honly.loggers fun other hne => dispatchPending_other hne
  rw [CLogSystem.pendingOf_eq (dispatchPending_self hc).1, List.nil_append] at hafter
  rw [CLogSystem.dispatchPending_spoken, called_shown hhearing, ← List.map_append]
  exact (hbefore.trans (hafter.symm.append_left _)).map l.shown

/-- What a channel accepts waits, if the channel is registered. -/
theorem waiting_accept (h : Indexed hash s) {c : CLog} (hc : s.log? log = some c) (msg : SLogMessage) :
    (log ∈ s.loggers.map Prod.snd →
      (waiting (s.setLog log { c with pendingDispatch := c.pendingDispatch ++ [msg] })).Perm (waiting s ++ [msg])) ∧
    (log ∉ s.loggers.map Prod.snd →
      waiting (s.setLog log { c with pendingDispatch := c.pendingDispatch ++ [msg] }) = waiting s) := by
  refine ⟨fun hlog => ?_, fun hlog => ?_⟩
  · obtain ⟨rest, hbefore, hafter⟩ := waiting_split
      (t := s.setLog log { c with pendingDispatch := c.pendingDispatch ++ [msg] }) h hlog rfl
      fun other hne => CLogSystem.log?_setLog_of_ne hne _
    rw [CLogSystem.pendingOf_eq (CLogSystem.log?_setLog_self hc _), List.append_assoc] at hafter
    rw [CLogSystem.pendingOf_eq hc] at hbefore
    refine hafter.trans ((List.perm_append_comm.append_left _).trans ?_)
    rw [← List.append_assoc]
    exact hbefore.symm.append_right [msg]
  · refine List.flatMap_congr fun other hmem => ?_
    have hne : log ≠ other := by
      rintro rfl
      exact hlog hmem
    unfold CLogSystem.pendingOf
    rw [CLogSystem.log?_setLog_of_ne hne]

/-- A dispatch leaves nothing waiting. -/
theorem Indexed.dispatch (h : Indexed hash s) (hdispatch : s.dispatchListeners order = some (t, out)) :
    order.Perm (s.loggers.map Prod.snd) ∧ OnlyLogs s t ∧ out = order.flatMap s.spoken ∧ waiting t = [] := by
  unfold CLogSystem.dispatchListeners at hdispatch
  split at hdispatch
  · rename_i horder
    have hall : s.dispatchAll order = (t, out) := Option.some.inj hdispatch
    have honly := OnlyLogs.dispatchAll s order
    have hspoken := CLogSystem.dispatchAll_spoken (s := s) (horder.nodup_iff.mpr h.nodup)
    have hdelivered : waiting (s.dispatchAll order).1 = [] := by
      unfold waiting
      rw [honly.loggers, List.flatMap_eq_nil_iff]
      intro log hlog
      obtain ⟨c, hc⟩ := h.live hlog
      obtain ⟨⟨c', hc', hnone⟩, -⟩ := dispatchAll_delivers hc (horder.mem_iff.mpr hlog)
      rw [CLogSystem.pendingOf_eq hc', hnone]
    rw [hall] at honly hspoken hdelivered
    exact ⟨horder, honly, hspoken, hdelivered⟩
  · cases hdispatch

theorem Relays.dispatch (h : Indexed hash s) (hhearing : s.hearing l.key = [l])
    (hdispatch : s.dispatchListeners order = some (t, out)) : Relays l s t out := by
  obtain ⟨horder, honly, rfl, hdelivered⟩ := h.dispatch hdispatch
  refine ⟨fun hs => honly.initialized.trans hs, honly.enabledTargets, honly.hearing l.key, ?_⟩
  rw [hdelivered, List.map_nil, List.append_nil, calledOf_flatMap]
  simp only [called_shown hhearing]
  rw [← List.map_flatMap]
  exact (horder.symm.flatMap_right s.pendingOf).map l.shown

end Waiting

theorem construct_relays (h : Indexed hash s) {name : String} (hstep : s.construct hash name = some t) :
    Relays l s t [] := by
  obtain ⟨-, hloggers, -⟩ := h.construct hstep
  have hlength : s.names.length = s.logs.length := List.length_map _
  unfold CLogSystem.construct at hstep
  split at hstep
  · cases hstep
  · cases hstep
    refine ⟨id, rfl, rfl, ?_⟩
    rw [calledOf_nil, List.nil_append]
    unfold waiting
    rw [hloggers, List.map_append, List.flatMap_append]
    have hnew : ([(hash name, s.names.length)].map Prod.snd).flatMap ({ s with
        loggers := s.loggers ++ [(hash name, s.logs.length)]
        logs := s.logs ++ [some { name }] } : CLogSystem).pendingOf = [] := by
      rw [List.flatMap_eq_nil_iff]
      intro log hlog
      obtain rfl := List.mem_singleton.mp hlog
      refine CLogSystem.pendingOf_eq (c := { name }) (CLogSystem.log?_eq_some.mpr ?_)
      rw [hlength]
      exact List.getElem?_concat_length
    rw [hnew, List.append_nil]
    refine List.Perm.of_eq (congrArg (List.map l.shown) (List.flatMap_congr fun log hlog => ?_))
    obtain ⟨c, hc⟩ := h.live hlog
    have hget := CLogSystem.log?_eq_some.mp hc
    have hkept : ({ s with
        loggers := s.loggers ++ [(hash name, s.logs.length)]
        logs := s.logs ++ [some { name }] } : CLogSystem).log? log = some c := by
      refine CLogSystem.log?_eq_some.mpr ?_
      rw [List.getElem?_append_left (List.getElem?_eq_some_iff.mp hget).1, hget]
    rw [CLogSystem.pendingOf_eq hc, CLogSystem.pendingOf_eq hkept]

theorem step_relays (h : Indexed hash s) (hhearing : s.hearing l.key = [l]) {call : LogCall}
    (hstays : call.stays = true) (hrekeys : call.rekeys l.key = false) (htargets : ∀ targets, call ≠ .setEnabledTargets targets)
    (hwrite : ∀ log level target message now, call ≠ .write log level target message now)
    (hstep : s.step hash call = some (t, out)) : Relays l s t out := by
  cases call with
  | terminate => cases hstays
  | destroy log => cases hstays
  | setEnabledTargets targets => exact absurd rfl (htargets targets)
  | write log level target message now => exact absurd rfl (hwrite log level target message now)
  | Initialize config =>
    cases hstep
    have honly := OnlyLogs.applyConfig hash s config
    exact .quiet honly.loggers (.applyConfig hash s config) (fun _ => rfl) honly.enabledTargets (honly.hearing l.key) rfl
  | construct name =>
    obtain ⟨u, hconstruct, heq⟩ := Option.map_eq_some_iff.mp hstep
    cases heq
    exact construct_relays h hconstruct
  | setLogLevel name level =>
    cases hstep
    exact .onlyLogs (.setLogLevel hash s name level) (.setLogLevel hash s name level) rfl
  | setAllLogLevels level =>
    cases hstep
    exact .onlyLogs (.setAllLogLevels s level) (.setAllLogLevels s level) rfl
  | dispatchListeners order => exact Relays.dispatch h hhearing hstep
  | registerListener new history order =>
    obtain ⟨u, seen, hdispatch, -, rfl, rfl⟩ := registerListener_spec hstep
    have hne : new.key ≠ l.key := of_decide_eq_false hrekeys
    have hrelays := Relays.dispatch h hhearing hdispatch
    refine ⟨hrelays.initialized, hrelays.targets, (CLogSystem.hearing_registered _ hne).trans hrelays.hearing, ?_⟩
    rw [calledOf_append, (seen_called 0 l.key new _).2.2.2, if_neg hne, List.append_nil]
    exact hrelays.moved
  | unregisterListener other =>
    cases hstep
    exact .quiet rfl (.refl s) id rfl (s.hearing_unregistered (of_decide_eq_false hrekeys)) rfl
  | listen log new =>
    obtain ⟨u, hlisten, heq⟩ := Option.map_eq_some_iff.mp hstep
    cases heq
    obtain ⟨c, hlog, hset⟩ := Option.bind_eq_some_iff.mp hlisten
    split at hset
    · cases hset
    · cases hset
      exact .onlyLogs (.setLog s log _) (.setLog hlog rfl rfl rfl) rfl
  | unlisten log other =>
    obtain ⟨u, hlisten, heq⟩ := Option.map_eq_some_iff.mp hstep
    cases heq
    obtain ⟨c, hlog, hset⟩ := Option.map_eq_some_iff.mp hlisten
    cases hset
    exact .onlyLogs (.setLog s log _) (.setLog hlog rfl rfl rfl) rfl
  | flushTo log other =>
    obtain ⟨seen, hflush, heq⟩ := Option.map_eq_some_iff.mp hstep
    cases heq
    exact .onlyLogs (.refl s) (.refl s) (flushTo_quiet hflush l.key).2.2

end TgeCore.Logging
