import Mathlib.Data.List.Nodup
import TgeCore.Logging.LogSystem

namespace TgeCore.Logging
open Library

variable {hash : String → UInt64} {s t : CLogSystem} {log : Nat} {c : CLog} {out : List LogSeen}

/-- The level after the overrides, of which the last for the name's id counts. -/
def overridden (hash : String → UInt64) (name : String) (overrides : List (String × ELogLevel)) (level : ELogLevel) :
    ELogLevel :=
  overrides.foldl (fun level entry => if hash entry.1 = hash name then entry.2 else level) level

/-- The levels that a configuration gives a channel: the last set for its own id, or else the
default, or else those it has. -/
def LogConfig.level (hash : String → UInt64) (config : LogConfig) (c : CLog) : ELogLevel :=
  overridden hash c.name config.channelOverrides (config.defaultLevel.getD c.levelMask)

/-- What a CLog can expect of the log system: SetLogLevel and the configuration find it, and
what it has accepted is delivered to every listener by the next dispatch. -/
structure Registered (hash : String → UInt64) (s : CLogSystem) (log : Nat) (c : CLog) : Prop where
  found : ∀ level, (s.setLogLevel hash c.name level).2 = true ∧
    (s.setLogLevel hash c.name level).1.log? log = some { c with levelMask := level }
  configured : ∀ config, (s.Initialize hash config).log? log =
    some { c with levelMask := config.level hash c }
  delivered : ∀ order t out, s.dispatchListeners order = some (t, out) →
    (∃ c', t.log? log = some c' ∧ c'.pendingDispatch = []) ∧
    ∀ msg ∈ c.pendingDispatch, .dispatched log msg ∈ out ∧
      (∀ l ∈ s.listeners, .called l.key (l.shown msg) ∈ out) ∧
      ∀ l ∈ c.listeners, .channelCalled log l.key (l.shown msg) ∈ out

/-- No two entries of the registry have one id, and each is of a CLog that has its id. -/
structure Indexed (hash : String → UInt64) (s : CLogSystem) : Prop where
  unique : (s.loggers.map Prod.fst).Nodup
  named : ∀ id log, (id, log) ∈ s.loggers → ∃ name, s.names[log]? = some (some name) ∧ hash name = id

/-- Every CLog keeps its name and its place in the registry. -/
structure Keeps (s t : CLogSystem) : Prop where
  names : t.names = s.names
  loggers : t.loggers = s.loggers

theorem Keeps.refl (s : CLogSystem) : Keeps s s := ⟨rfl, rfl⟩

theorem Keeps.trans {u : CLogSystem} (h : Keeps s t) (h' : Keeps t u) : Keeps s u :=
  ⟨h'.names.trans h.names, h'.loggers.trans h.loggers⟩

theorem Keeps.setLog (h : s.log? log = some c) {c' : CLog} (hname : c'.name = c.name) :
    Keeps s (s.setLog log c') := ⟨CLogSystem.names_setLog h hname, rfl⟩

theorem Keeps.foldl {α : Type} {f : CLogSystem → α → CLogSystem} (hf : ∀ s a, Keeps s (f s a)) (entries : List α)
    (s : CLogSystem) : Keeps s (entries.foldl f s) := by
  induction entries generalizing s with
  | nil => exact .refl s
  | cons entry rest ih => exact (hf s entry).trans (ih (f s entry))

namespace CLogSystem

theorem setLevelMask_keeps (s : CLogSystem) (log : Nat) (level : ELogLevel) : Keeps s (s.setLevelMask log level) := by
  unfold setLevelMask
  split
  · rename_i c hlog
    exact .setLog hlog rfl
  · exact .refl s

theorem setLogLevel_keeps (hash : String → UInt64) (s : CLogSystem) (name : String) (level : ELogLevel) :
    Keeps s (s.setLogLevel hash name level).1 := by
  unfold setLogLevel
  split
  · exact s.setLevelMask_keeps _ level
  · exact .refl s

theorem setAllLogLevels_keeps (s : CLogSystem) (level : ELogLevel) : Keeps s (s.setAllLogLevels level) :=
  .foldl (f := fun s (entry : UInt64 × Nat) => s.setLevelMask entry.2 level)
    (fun s entry => s.setLevelMask_keeps entry.2 level) s.loggers s

theorem applyConfig_keeps (hash : String → UInt64) (s : CLogSystem) (config : LogConfig) :
    Keeps s (s.applyConfig hash config) := by
  refine Keeps.trans ?_ (.foldl (f := fun s (entry : String × ELogLevel) => (s.setLogLevel hash entry.1 entry.2).1)
    (fun s entry => s.setLogLevel_keeps hash entry.1 entry.2) _ _)
  split
  · exact s.setAllLogLevels_keeps _
  · exact .refl s

theorem dispatchPending_keeps (s : CLogSystem) (log : Nat) : Keeps s (s.dispatchPending log).1 := by
  unfold dispatchPending
  split
  · rename_i c hlog
    exact .setLog hlog rfl
  · exact .refl s

theorem dispatchAll_keeps (s : CLogSystem) (order : List Nat) : Keeps s (s.dispatchAll order).1 := by
  induction order generalizing s with
  | nil => exact .refl s
  | cons log rest ih => exact (s.dispatchPending_keeps log).trans (ih (s.dispatchPending log).1)

theorem dispatchListeners_keeps {order : List Nat} (h : s.dispatchListeners order = some (t, out)) : Keeps s t := by
  unfold dispatchListeners at h
  split at h
  · have ht : (s.dispatchAll order).1 = t := congrArg Prod.fst (Option.some.inj h)
    rw [← ht]
    exact s.dispatchAll_keeps order
  · cases h

theorem registerListener_keeps {l : SListener} {history : EHistory} {order : List Nat}
    (h : s.registerListener l history order = some (t, out)) : Keeps s t := by
  unfold registerListener at h
  split at h
  · cases h
  · obtain ⟨⟨u, seen⟩, hdispatch, heq⟩ := Option.map_eq_some_iff.mp h
    cases heq
    exact (dispatchListeners_keeps hdispatch).trans ⟨rfl, rfl⟩

theorem write_keeps {level : ELogLevel} {target : ETarget} {message : String} {now : Now}
    (h : s.write log level target message now = some (t, out)) : Keeps s t := by
  obtain ⟨c, hlog, heq⟩ := Option.map_eq_some_iff.mp h
  simp only at heq
  split at heq
  · cases heq
    exact .setLog hlog rfl
  · cases heq
    exact .refl s

end CLogSystem

/-- The calls that change which CLogs there are and which are registered. -/
def LogCall.moves : LogCall → Bool
  | .terminate => true
  | .construct _ => true
  | .destroy _ => true
  | _ => false

theorem step_keeps {call : LogCall} (hcall : call.moves = false) (h : s.step hash call = some (t, out)) : Keeps s t := by
  cases call with
  | Initialize config =>
    cases h
    exact (s.applyConfig_keeps hash config).trans ⟨rfl, rfl⟩
  | write log level target message now => exact CLogSystem.write_keeps h
  | setLogLevel name level =>
    cases h
    exact s.setLogLevel_keeps hash name level
  | setAllLogLevels level =>
    cases h
    exact s.setAllLogLevels_keeps level
  | setEnabledTargets targets =>
    cases h
    exact ⟨rfl, rfl⟩
  | registerListener l history order => exact CLogSystem.registerListener_keeps h
  | unregisterListener key =>
    cases h
    exact ⟨rfl, rfl⟩
  | dispatchListeners order => exact CLogSystem.dispatchListeners_keeps h
  | listen log l =>
    obtain ⟨u, hlisten, heq⟩ := Option.map_eq_some_iff.mp h
    cases heq
    obtain ⟨c, hlog, hset⟩ := Option.bind_eq_some_iff.mp hlisten
    split at hset
    · cases hset
    · cases hset
      exact .setLog hlog rfl
  | unlisten log key =>
    obtain ⟨u, hlisten, heq⟩ := Option.map_eq_some_iff.mp h
    cases heq
    obtain ⟨c, hlog, hset⟩ := Option.map_eq_some_iff.mp hlisten
    cases hset
    exact .setLog hlog rfl
  | flushTo log key =>
    obtain ⟨seen, hflush, heq⟩ := Option.map_eq_some_iff.mp h
    cases heq
    exact .refl s
  | terminate => cases hcall
  | construct name => cases hcall
  | destroy log => cases hcall

/-- The names of the CLogs that some calls construct. -/
def constructed (calls : List LogCall) : List String :=
  calls.filterMap fun
    | .construct name => some name
    | _ => none

/-- Neither a Terminate nor the destruction of a CLog with the same id is among the later
calls, where `names` are those of the CLogs constructed so far. -/
def Undisturbed (hash : String → UInt64) (name : String) : List String → List LogCall → Prop
  | _, [] => True
  | _, .terminate :: _ => False
  | names, .construct other :: later => Undisturbed hash name (names ++ [other]) later
  | names, .destroy log :: later =>
    (∀ other ∈ names[log]?, hash other ≠ hash name) ∧ Undisturbed hash name names later
  | names, _ :: later => Undisturbed hash name names later

theorem undisturbed_cons {call : LogCall} (hcall : call.moves = false) (name : String) (names : List String)
    (later : List LogCall) : Undisturbed hash name names (call :: later) ↔ Undisturbed hash name names later := by
  cases call with
  | terminate => cases hcall
  | construct other => cases hcall
  | destroy log => cases hcall
  | _ => exact Iff.rfl

namespace Indexed

theorem keep (h : Indexed hash s) (hkeeps : Keeps s t) : Indexed hash t := by
  refine ⟨?_, fun id log hentry => ?_⟩
  · rw [hkeeps.loggers]
    exact h.unique
  · rw [hkeeps.loggers] at hentry
    rw [hkeeps.names]
    exact h.named id log hentry

theorem find_iff (h : Indexed hash s) (id : UInt64) : s.find id = some log ↔ (id, log) ∈ s.loggers := by
  unfold CLogSystem.find
  rw [Option.map_eq_some_iff]
  constructor
  · rintro ⟨entry, hfind, rfl⟩
    have hid : entry.1 = id := by simpa using List.find?_some hfind
    exact hid ▸ List.mem_of_find?_eq_some hfind
  · intro hentry
    refine ⟨(id, log), ?_, rfl⟩
    have hsome : (s.loggers.find? fun entry => entry.1 = id).isSome := by
      rw [List.find?_isSome]
      exact ⟨(id, log), hentry, by simp⟩
    obtain ⟨entry, hfind⟩ := Option.isSome_iff_exists.mp hsome
    have hid : entry.1 = id := by simpa using List.find?_some hfind
    rw [hfind]
    have heq := List.inj_on_of_nodup_map h.unique (List.mem_of_find?_eq_some hfind) hentry hid
    rw [heq]

theorem find_none (h : Indexed hash s) (id : UInt64) : s.find id = none ↔ id ∉ s.loggers.map Prod.fst := by
  constructor
  · intro hnone hmem
    obtain ⟨⟨other, log⟩, hentry, rfl⟩ := List.mem_map.mp hmem
    rw [(h.find_iff _).mpr hentry] at hnone
    cases hnone
  · intro hmem
    cases hfind : s.find id with
    | none => rfl
    | some log => exact absurd (List.mem_map.mpr ⟨_, (h.find_iff id).mp hfind, rfl⟩) hmem

/-- The registry's channels are there, each of them once. -/
theorem live (h : Indexed hash s) (hlog : log ∈ s.loggers.map Prod.snd) : ∃ c, s.log? log = some c := by
  obtain ⟨entry, hentry, rfl⟩ := List.mem_map.mp hlog
  obtain ⟨name, hname, -⟩ := h.named entry.1 entry.2 hentry
  obtain ⟨c, hc, -⟩ := CLogSystem.log?_of_names hname
  exact ⟨c, hc⟩

theorem nodup (h : Indexed hash s) : (s.loggers.map Prod.snd).Nodup := by
  refine List.Nodup.map_on ?_ h.unique.of_map
  intro entry hentry entry' hentry' heq
  obtain ⟨name, hname, hid⟩ := h.named entry.1 entry.2 hentry
  obtain ⟨name', hname', hid'⟩ := h.named entry'.1 entry'.2 hentry'
  rw [heq] at hname
  cases hname.symm.trans hname'
  exact Prod.ext (hid.symm.trans hid') heq

theorem empty : Indexed hash {} := ⟨List.nodup_nil, fun _ _ hentry => absurd hentry List.not_mem_nil⟩

theorem terminate (s : CLogSystem) : Indexed hash s.terminate :=
  ⟨List.nodup_nil, fun _ _ hentry => absurd hentry List.not_mem_nil⟩

theorem construct (h : Indexed hash s) {name : String} (hstep : s.construct hash name = some t) :
    Indexed hash t ∧ t.loggers = s.loggers ++ [(hash name, s.names.length)] ∧ t.names = s.names ++ [some name] := by
  unfold CLogSystem.construct at hstep
  split at hstep
  · cases hstep
  · rename_i hfree
    cases hstep
    have hnone : s.find (hash name) = none := by
      cases hfind : s.find (hash name) with
      | none => rfl
      | some log => exact absurd (.inr (by rw [hfind]; rfl)) hfree
    have hnames : ({ s with
        loggers := s.loggers ++ [(hash name, s.logs.length)]
        logs := s.logs ++ [some { name }] } : CLogSystem).names = s.names ++ [some name] := by
      unfold CLogSystem.names
      rw [List.map_append]
      rfl
    have hlength : s.names.length = s.logs.length := List.length_map _
    refine ⟨⟨?_, fun id log hentry => ?_⟩, by rw [hlength], hnames⟩
    · rw [List.map_append, List.map_singleton]
      refine List.nodup_append.mpr ⟨h.unique, List.nodup_singleton _, ?_⟩
      rintro id hid _ hnew rfl
      obtain rfl := List.mem_singleton.mp hnew
      exact (h.find_none _).mp hnone hid
    · rw [hnames]
      cases List.mem_append.mp hentry with
      | inl hold =>
        obtain ⟨ofName, hget, hid⟩ := h.named id log hold
        refine ⟨ofName, ?_, hid⟩
        rw [List.getElem?_append_left (List.getElem?_eq_some_iff.mp hget).1, hget]
      | inr hnew =>
        cases List.mem_singleton.mp hnew
        exact ⟨name, by rw [← hlength, List.getElem?_concat_length], rfl⟩

theorem destroy (h : Indexed hash s) (hlog : s.log? log = some c) (hstep : s.destroy hash log = some t) :
    Indexed hash t ∧ t.loggers = (s.loggers.filter fun entry => entry.1 ≠ hash c.name) ∧
      t.names = s.names.set log none := by
  unfold CLogSystem.destroy at hstep
  rw [hlog] at hstep
  cases hstep
  have hnames : ({ s with
      loggers := s.loggers.filter fun entry => entry.1 ≠ hash c.name
      logs := s.logs.set log none } : CLogSystem).names = s.names.set log none := by
    unfold CLogSystem.names
    rw [List.map_set]
    rfl
  refine ⟨⟨h.unique.sublist (List.filter_sublist.map _), fun id other hentry => ?_⟩, rfl, hnames⟩
  obtain ⟨hold, hne⟩ := List.mem_filter.mp hentry
  obtain ⟨ofName, hget, hid⟩ := h.named id other hold
  refine ⟨ofName, ?_, hid⟩
  rw [hnames, List.getElem?_set_ne, hget]
  rintro rfl
  have hsame := (CLogSystem.log?_names hlog).symm.trans hget
  cases hsame
  simp [hid] at hne

end Indexed

/-- The names of all CLogs constructed so far are known, whether they are destroyed or not. -/
structure Named (names : List String) (s : CLogSystem) : Prop where
  length : s.names.length = names.length
  live : ∀ (log : Nat) (name : String), s.names[log]? = some (some name) → names[log]? = some name

namespace Named
variable {names : List String}

theorem keep (h : Named names s) (hkeeps : Keeps s t) : Named names t := by
  refine ⟨?_, ?_⟩
  · rw [hkeeps.names, h.length]
  · rw [hkeeps.names]
    exact h.live

theorem construct (h : Named names s) {name : String} (hnames : t.names = s.names ++ [some name]) :
    Named (names ++ [name]) t := by
  refine ⟨?_, fun log other hlog => ?_⟩
  · rw [hnames, List.length_append, List.length_append, h.length]
    rfl
  · rw [hnames, List.getElem?_append] at hlog
    rw [List.getElem?_append, ← h.length]
    split at hlog
    · rename_i hlt
      rw [if_pos hlt]
      exact h.live log other hlog
    · rename_i hge
      rw [if_neg hge]
      have hmem := List.mem_of_getElem? hlog
      have hzero : log - s.names.length = 0 := by
        have hlt := (List.getElem?_eq_some_iff.mp hlog).1
        simp only [List.length_singleton] at hlt
        omega
      rw [hzero]
      cases List.mem_singleton.mp hmem
      rfl

theorem destroy (h : Named names s) (hnames : t.names = s.names.set log none) : Named names t := by
  refine ⟨?_, fun other name hlog => ?_⟩
  · rw [hnames, List.length_set, h.length]
  · rw [hnames, List.getElem?_set] at hlog
    split at hlog
    · split at hlog
      · cases hlog
      · cases hlog
    · exact h.live other name hlog

end Named

/-- What a run knows of the registry: a CLog's entry stays while nothing disturbs it, and
never comes back. -/
theorem registry_iff {names : List String} {name : String} {later : List LogCall} {os : List (List LogSeen)}
    (hindexed : Indexed hash s) (hnamed : Named names s) (hlog : log < names.length)
    (hrun : (logSystem hash).run s later = some (t, os)) :
    Indexed hash t ∧ ((hash name, log) ∈ t.loggers ↔ (hash name, log) ∈ s.loggers ∧ Undisturbed hash name names later) := by
  induction later generalizing s names os with
  | nil =>
    obtain ⟨rfl, rfl⟩ : s = t ∧ [] = os := by simpa [Machine.run] using hrun
    exact ⟨hindexed, by simp [Undisturbed]⟩
  | cons call later ih =>
    obtain ⟨u, o, os', hstep, hrest, rfl⟩ := Machine.run_cons_eq_some.mp hrun
    cases hmoves : call.moves with
    | false =>
      have hkeeps := step_keeps hmoves hstep
      obtain ⟨hindexed', hiff⟩ := ih (hindexed.keep hkeeps) (hnamed.keep hkeeps) hlog hrest
      rw [undisturbed_cons hmoves, hiff, hkeeps.loggers]
      exact ⟨hindexed', Iff.rfl⟩
    | true =>
      cases call with
      | terminate =>
        cases hstep
        obtain ⟨hindexed', hiff⟩ := ih (.terminate s) ⟨hnamed.length, hnamed.live⟩ hlog hrest
        refine ⟨hindexed', ?_⟩
        rw [hiff]
        simp [CLogSystem.terminate, Undisturbed]
      | construct other =>
        obtain ⟨u', hconstruct, heq⟩ := Option.map_eq_some_iff.mp hstep
        cases heq
        obtain ⟨hindexed', hloggers, hnames⟩ := hindexed.construct hconstruct
        have hlog' : log < (names ++ [other]).length := by
          rw [List.length_append]
          omega
        obtain ⟨hlast, hiff⟩ := ih hindexed' (hnamed.construct hnames) hlog' hrest
        refine ⟨hlast, ?_⟩
        have hold : (hash name, log) ∈ u.loggers ↔ (hash name, log) ∈ s.loggers := by
          rw [hloggers, List.mem_append, List.mem_singleton, Prod.mk.injEq, hnamed.length]
          refine or_iff_left fun hnew => ?_
          omega
        rw [hiff, hold]
        rfl
      | destroy other =>
        obtain ⟨u', hdestroy, heq⟩ := Option.map_eq_some_iff.mp hstep
        cases heq
        obtain ⟨c, hc, -⟩ := Option.map_eq_some_iff.mp hdestroy
        obtain ⟨hindexed', hloggers, hnames⟩ := hindexed.destroy hc hdestroy
        obtain ⟨hlast, hiff⟩ := ih hindexed' (hnamed.destroy hnames) hlog hrest
        refine ⟨hlast, ?_⟩
        have hname : names[other]? = some c.name := hnamed.live other c.name (CLogSystem.log?_names hc)
        have hundisturbed : Undisturbed hash name names (.destroy other :: later) ↔
            hash c.name ≠ hash name ∧ Undisturbed hash name names later := by
          simp [Undisturbed, hname]
        rw [hiff, hundisturbed, hloggers, List.mem_filter, and_assoc]
        simp [ne_comm]
      | _ => cases hmoves

theorem constructed_append (calls later : List LogCall) :
    constructed (calls ++ later) = constructed calls ++ constructed later := List.filterMap_append

theorem Indexed.step (h : Indexed hash s) {call : LogCall} (hstep : s.step hash call = some (t, out)) :
    Indexed hash t := by
  cases hmoves : call.moves with
  | false => exact h.keep (step_keeps hmoves hstep)
  | true =>
    cases call with
    | terminate =>
      cases hstep
      exact .terminate s
    | construct name =>
      obtain ⟨u, hconstruct, heq⟩ := Option.map_eq_some_iff.mp hstep
      cases heq
      exact (h.construct hconstruct).1
    | destroy log =>
      obtain ⟨u, hdestroy, heq⟩ := Option.map_eq_some_iff.mp hstep
      cases heq
      obtain ⟨c, hc, -⟩ := Option.map_eq_some_iff.mp hdestroy
      exact (h.destroy hc hdestroy).1
    | _ => cases hmoves

theorem Named.step {names : List String} {call : LogCall} (h : Named names s) (hindexed : Indexed hash s)
    (hstep : s.step hash call = some (t, out)) : Named (names ++ constructed [call]) t := by
  cases hmoves : call.moves with
  | false =>
    have hnone : constructed [call] = [] := by
      cases call with
      | construct name => cases hmoves
      | _ => rfl
    rw [hnone, List.append_nil]
    exact h.keep (step_keeps hmoves hstep)
  | true =>
    cases call with
    | terminate =>
      cases hstep
      rw [constructed, List.filterMap_cons_none rfl, List.filterMap_nil, List.append_nil]
      exact ⟨h.length, h.live⟩
    | construct name =>
      obtain ⟨u, hconstruct, heq⟩ := Option.map_eq_some_iff.mp hstep
      cases heq
      exact h.construct (hindexed.construct hconstruct).2.2
    | destroy log =>
      obtain ⟨u, hdestroy, heq⟩ := Option.map_eq_some_iff.mp hstep
      cases heq
      obtain ⟨c, hc, -⟩ := Option.map_eq_some_iff.mp hdestroy
      rw [constructed, List.filterMap_cons_none rfl, List.filterMap_nil, List.append_nil]
      exact h.destroy (hindexed.destroy hc hdestroy).2.2
    | _ => cases hmoves

theorem run_named {calls : List LogCall} {os : List (List LogSeen)}
    (hrun : (logSystem hash).run {} calls = some (s, os)) : Indexed hash s ∧ Named (constructed calls) s := by
  refine Machine.run_invariant (fun calls _ s => Indexed hash s ∧ Named (constructed calls) s) [] [] ?_
    ⟨.empty, ⟨rfl, fun log name hlog => by simp [CLogSystem.names] at hlog⟩⟩ hrun
  intro calls os s call t out hinv hstep
  rw [constructed_append]
  exact ⟨hinv.1.step hstep, hinv.2.step hinv.1 hstep⟩

section Found
variable {name : String} {level : ELogLevel}

theorem setLevelMask_self (h : s.log? log = some c) (level : ELogLevel) :
    (s.setLevelMask log level).log? log = some { c with levelMask := level } := by
  unfold CLogSystem.setLevelMask
  rw [h]
  exact CLogSystem.log?_setLog_self h _

theorem setLevelMask_other {other : Nat} (hne : other ≠ log) (level : ELogLevel) :
    (s.setLevelMask other level).log? log = s.log? log := by
  unfold CLogSystem.setLevelMask
  split
  · exact CLogSystem.log?_setLog_of_ne hne _
  · rfl

/-- SetLogLevel on a name changes the CLog that the registry has for it. -/
theorem setLogLevel_log (hash : String → UInt64) (h : s.log? log = some c) (name : String) (level : ELogLevel) :
    (s.setLogLevel hash name level).1.log? log =
      some (if s.find (hash name) = some log then { c with levelMask := level } else c) := by
  unfold CLogSystem.setLogLevel
  cases hfind : s.find (hash name) with
  | none => exact h
  | some other =>
    by_cases hother : other = log
    · subst hother
      rw [if_pos rfl]
      exact setLevelMask_self h level
    · rw [if_neg (fun heq => hother (Option.some.inj heq))]
      exact (setLevelMask_other hother level).trans h

theorem setLevelMasks_log (level : ELogLevel) (entries : List (UInt64 × Nat)) (h : s.log? log = some c) :
    (entries.foldl (fun s entry => s.setLevelMask entry.2 level) s).log? log =
      some (if log ∈ entries.map Prod.snd then { c with levelMask := level } else c) := by
  induction entries generalizing s c with
  | nil => exact h
  | cons entry rest ih =>
    rw [List.foldl_cons, List.map_cons]
    by_cases hentry : entry.2 = log
    · rw [hentry, ih (setLevelMask_self h level), if_pos List.mem_cons_self]
      split
      · rfl
      · rfl
    · rw [ih ((setLevelMask_other hentry level).trans h)]
      refine congrArg some (if_congr ?_ rfl rfl)
      rw [List.mem_cons]
      exact (or_iff_right (Ne.symm hentry)).symm

/-- The channels' own levels, one after the other, reach the CLog that the registry has. -/
theorem overrides_log (hindexed : Indexed hash s) (h : s.log? log = some c)
    (hentry : (hash c.name, log) ∈ s.loggers) (overrides : List (String × ELogLevel)) :
    (overrides.foldl (fun s entry => (s.setLogLevel hash entry.1 entry.2).1) s).log? log =
      some { c with levelMask := overridden hash c.name overrides c.levelMask } := by
  induction overrides generalizing s c with
  | nil => exact h
  | cons entry rest ih =>
    have hkeeps := s.setLogLevel_keeps hash entry.1 entry.2
    have hfind : s.find (hash entry.1) = some log ↔ hash entry.1 = hash c.name := by
      rw [hindexed.find_iff]
      constructor
      · intro hid
        obtain ⟨other, hother, heq⟩ := hindexed.named _ _ hid
        cases (CLogSystem.log?_names h).symm.trans hother
        exact heq.symm
      · intro heq
        rwa [heq]
    have hnext := setLogLevel_log hash h entry.1 entry.2
    rw [List.foldl_cons, overridden, List.foldl_cons]
    by_cases heq : hash entry.1 = hash c.name
    · rw [if_pos (hfind.mpr heq)] at hnext
      rw [if_pos heq]
      exact ih (hindexed.keep hkeeps) hnext (hkeeps.loggers ▸ hentry)
    · rw [if_neg (fun hsome => heq (hfind.mp hsome))] at hnext
      rw [if_neg heq]
      exact ih (hindexed.keep hkeeps) hnext (hkeeps.loggers ▸ hentry)

theorem applyConfig_log (hindexed : Indexed hash s) (h : s.log? log = some c)
    (hentry : (hash c.name, log) ∈ s.loggers) (config : LogConfig) :
    (s.applyConfig hash config).log? log = some { c with levelMask := config.level hash c } := by
  unfold CLogSystem.applyConfig LogConfig.level
  cases config.defaultLevel with
  | none => exact overrides_log hindexed h hentry config.channelOverrides
  | some level =>
    have hkeeps := s.setAllLogLevels_keeps level
    have hall : (s.setAllLogLevels level).log? log = some { c with levelMask := level } := by
      have hmem : log ∈ s.loggers.map Prod.snd := List.mem_map.mpr ⟨_, hentry, rfl⟩
      exact (setLevelMasks_log level s.loggers h).trans (congrArg some (if_pos hmem))
    exact overrides_log (hindexed.keep hkeeps) hall (hkeeps.loggers ▸ hentry) config.channelOverrides

end Found

section Dispatch

theorem dispatchPending_listeners (s : CLogSystem) (log : Nat) :
    (s.dispatchPending log).1.listeners = s.listeners := by
  unfold CLogSystem.dispatchPending
  split
  · rfl
  · rfl

theorem dispatchPending_self (h : s.log? log = some c) :
    (s.dispatchPending log).1.log? log =
      some { c with pendingDispatch := [], history := popFront (c.history ++ c.pendingDispatch) } ∧
    (s.dispatchPending log).2 = c.pendingDispatch.flatMap (deliver log c.listeners s.listeners) := by
  unfold CLogSystem.dispatchPending
  rw [h]
  exact ⟨CLogSystem.log?_setLog_self h _, rfl⟩

theorem dispatchPending_other {other : Nat} (hne : other ≠ log) :
    (s.dispatchPending other).1.log? log = s.log? log := by
  unfold CLogSystem.dispatchPending
  split
  · exact CLogSystem.log?_setLog_of_ne hne _
  · rfl

/-- Once nothing is pending, later turns keep it so. -/
theorem dispatchAll_idle {order : List Nat} (h : s.log? log = some c) (hidle : c.pendingDispatch = []) :
    ∃ c', (s.dispatchAll order).1.log? log = some c' ∧ c'.pendingDispatch = [] := by
  induction order generalizing s c with
  | nil => exact ⟨c, h, hidle⟩
  | cons other rest ih =>
    by_cases hother : other = log
    · subst hother
      exact ih (dispatchPending_self h).1 rfl
    · exact ih ((dispatchPending_other hother).trans h) hidle

/-- A dispatch that comes to a CLog delivers all that is pending in it. -/
theorem dispatchAll_delivers {order : List Nat} (h : s.log? log = some c) (hmem : log ∈ order) :
    (∃ c', (s.dispatchAll order).1.log? log = some c' ∧ c'.pendingDispatch = []) ∧
      ∀ msg ∈ c.pendingDispatch, ∀ seen ∈ deliver log c.listeners s.listeners msg, seen ∈ (s.dispatchAll order).2 := by
  induction order generalizing s with
  | nil => cases hmem
  | cons other rest ih =>
    by_cases hother : other = log
    · subst hother
      obtain ⟨hself, hout⟩ := dispatchPending_self h
      have hidle : ∃ c', ((s.dispatchPending other).1.dispatchAll rest).1.log? other = some c' ∧ c'.pendingDispatch = [] :=
        dispatchAll_idle hself rfl
      refine ⟨hidle, fun msg hmsg seen hseen => List.mem_append_left _ ?_⟩
      rw [hout]
      exact List.mem_flatMap.mpr ⟨msg, hmsg, hseen⟩
    · obtain ⟨hidle, hall⟩ := ih ((dispatchPending_other hother).trans h)
        ((List.mem_cons.mp hmem).resolve_left (Ne.symm hother))
      refine ⟨hidle, fun msg hmsg seen hseen => List.mem_append_right _ (hall msg hmsg seen ?_)⟩
      rwa [dispatchPending_listeners]

end Dispatch

theorem exists_ne_level (level : ELogLevel) : ∃ other, other ≠ level := by
  by_cases h : level = .None
  · exact ⟨.All, h ▸ by decide⟩
  · exact ⟨.None, Ne.symm h⟩

/-- A CLog is served exactly if the registry has an entry for it. -/
theorem Indexed.registered_iff (hindexed : Indexed hash s) (h : s.log? log = some c) :
    Registered hash s log c ↔ (hash c.name, log) ∈ s.loggers := by
  constructor
  · intro hregistered
    rw [← hindexed.find_iff]
    by_contra hfind
    obtain ⟨level, hlevel⟩ := exists_ne_level c.levelMask
    have hlog := (hregistered.found level).2
    rw [setLogLevel_log hash h, if_neg hfind] at hlog
    exact hlevel (congrArg CLog.levelMask (Option.some.inj hlog)).symm
  · intro hentry
    have hfind := (hindexed.find_iff (hash c.name)).mpr hentry
    refine ⟨fun level => ⟨?_, ?_⟩, applyConfig_log hindexed h hentry, fun order t out hdispatch => ?_⟩
    · unfold CLogSystem.setLogLevel
      rw [hfind]
    · rw [setLogLevel_log hash h, if_pos hfind]
    · unfold CLogSystem.dispatchListeners at hdispatch
      split at hdispatch
      · rename_i horder
        have hall : s.dispatchAll order = (t, out) := Option.some.inj hdispatch
        have hmem : log ∈ order := horder.mem_iff.mpr (List.mem_map.mpr ⟨_, hentry, rfl⟩)
        have hdelivers := dispatchAll_delivers h hmem
        rw [hall] at hdelivers
        refine ⟨hdelivers.1, fun msg hmsg => ⟨?_, fun l hl => ?_, fun l hl => ?_⟩⟩
        · exact hdelivers.2 msg hmsg _ (List.mem_append_left _ List.mem_cons_self)
        · exact hdelivers.2 msg hmsg _ (List.mem_append_right _ (List.mem_map.mpr ⟨l, hl, rfl⟩))
        · exact hdelivers.2 msg hmsg _ (List.mem_append_left _ (List.mem_cons_of_mem _ (List.mem_map.mpr ⟨l, hl, rfl⟩)))
      · cases hdispatch

/-- A live CLog is a registered channel exactly if since its construction there was no
Terminate and no other CLog of its id was destroyed. -/
theorem registered_iff_undisturbed {pre later : List LogCall} {name : String} {os : List (List LogSeen)}
    (hrun : (logSystem hash).run {} (pre ++ .construct name :: later) = some (s, os))
    (hlive : s.log? (constructed pre).length = some c) :
    Registered hash s (constructed pre).length c ↔ Undisturbed hash name (constructed pre ++ [name]) later := by
  obtain ⟨u, os₁, os₂, hpre, hrest, -⟩ := Machine.run_append_eq_some.mp hrun
  obtain ⟨v, o, os₃, hstep, hlater, -⟩ := Machine.run_cons_eq_some.mp hrest
  obtain ⟨hindexed, hnamed⟩ := run_named hpre
  obtain ⟨v', hconstruct, heq⟩ := Option.map_eq_some_iff.mp hstep
  cases heq
  obtain ⟨hindexed', hloggers, hnames⟩ := hindexed.construct hconstruct
  have hnamed' := hnamed.construct hnames
  have hlt : (constructed pre).length < (constructed pre ++ [name]).length := by
    rw [List.length_append]
    exact Nat.lt_add_one _
  obtain ⟨hlast, hentry⟩ := registry_iff hindexed' hnamed' hlt hlater
  have hname : c.name = name := by
    have hget := (run_named hrun).2.live _ _ (CLogSystem.log?_names hlive)
    rw [constructed_append, List.getElem?_append_right (Nat.le_refl _), Nat.sub_self] at hget
    exact (Option.some.inj hget).symm
  rw [hlast.registered_iff hlive, hname, hentry, hloggers, ← hnamed.length]
  exact and_iff_right (List.mem_append_right _ List.mem_cons_self)

/-- A hash to run examples with. -/
def lengthHash (name : String) : UInt64 := UInt64.ofNat name.length

/-- Of two channels, the one that is not destroyed stays registered when Initialize runs again. -/
theorem registered_iff_undisturbed_two :
    ∃ s c os, (logSystem lengthHash).run {} ([.construct "Editor"] ++ .construct "Core" ::
        [.Initialize {}, .destroy 0, .Initialize { defaultLevel := some .Error }]) = some (s, os) ∧
      s.log? 1 = some c ∧ c.levelMask = .Error ∧ Registered lengthHash s 1 c := by
  have hrun : (logSystem lengthHash).run {} ([.construct "Editor"] ++ .construct "Core" ::
      [.Initialize {}, .destroy 0, .Initialize { defaultLevel := some .Error }]) =
      some ({ initialized := true, loggers := [(4, 1)], logs := [none, some { name := "Core", levelMask := .Error }] },
        [[], [], [], [], []]) := by decide +kernel
  have hundisturbed : Undisturbed lengthHash "Core" (constructed [.construct "Editor"] ++ ["Core"])
      [.Initialize {}, .destroy 0, .Initialize { defaultLevel := some .Error }] := by
    refine ⟨?_, trivial⟩
    decide +kernel
  exact ⟨_, _, _, hrun, rfl, rfl, (registered_iff_undisturbed hrun rfl).mpr hundisturbed⟩

/-- A channel that lives through Terminate and Initialize is lost to the log system. -/
theorem restart_loses_channel :
    ∃ s c os, (logSystem lengthHash).run {} [.construct "Core", .Initialize {}, .terminate, .Initialize {}] = some (s, os) ∧
      s.log? 0 = some c ∧ ¬ Registered lengthHash s 0 c := by
  have hrun : (logSystem lengthHash).run {} [.construct "Core", .Initialize {}, .terminate, .Initialize {}] =
      some ({ initialized := true, logs := [some { name := "Core" }] }, [[], [], [], []]) := by decide +kernel
  refine ⟨_, _, _, hrun, rfl, fun hregistered => ?_⟩
  have hlost : (CLogSystem.setLogLevel lengthHash
      { initialized := true, logs := [some { name := "Core" }] } "Core" .All).2 = false := rfl
  exact absurd (hlost.symm.trans (hregistered.found .All).1) Bool.false_ne_true

end TgeCore.Logging
