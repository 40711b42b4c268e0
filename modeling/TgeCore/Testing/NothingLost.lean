import TgeCore.Library.Balance
import TgeCore.Logging.Relays
import TgeCore.Testing.ExpectedLog

namespace TgeCore.Testing
open Library Logging

variable {hash : String → UInt64} {s t : CLogSystem} {log key : Nat} {out : List LogSeen}

theorem ScopeCall.calm_call {call : LogCall} (h : (ScopeCall.call call).calm key = true) :
    call.stays = true ∧ call.rekeys key = false := by
  cases call with
  | setEnabledTargets targets => cases h
  | _ => simpa [ScopeCall.calm] using h

section Targets
variable (target savedTargets : ETarget)

theorem silenced_listeners : (target &&& silenced savedTargets) &&& .Listeners = target &&& .Listeners := by
  have hkept : ~~~ETarget.Terminal.bits &&& ETarget.Listeners.bits = ETarget.Listeners.bits := by decide
  have hbits : (savedTargets.bits ||| ETarget.Listeners.bits) &&& ETarget.Listeners.bits = ETarget.Listeners.bits := by
    apply BitVec.eq_of_getElem_eq
    intro i hi
    rw [BitVec.getElem_and, BitVec.getElem_or]
    cases ETarget.Listeners.bits[i] with
    | true => rw [Bool.or_true, Bool.true_and]
    | false => rw [Bool.and_false]
  refine congrArg ETarget.mk ?_
  change (target.bits &&& ((savedTargets.bits ||| ETarget.Listeners.bits) &&& ~~~ETarget.Terminal.bits)) &&&
    ETarget.Listeners.bits = _
  rw [BitVec.and_assoc, BitVec.and_assoc, hkept, hbits]

theorem silenced_terminal : (target &&& silenced savedTargets) &&& .Terminal = .None := by
  have hcleared : ~~~ETarget.Terminal.bits &&& ETarget.Terminal.bits = 0 := by decide
  refine congrArg ETarget.mk ?_
  change (target.bits &&& ((savedTargets.bits ||| ETarget.Listeners.bits) &&& ~~~ETarget.Terminal.bits)) &&&
    ETarget.Terminal.bits = 0
  rw [BitVec.and_assoc, BitVec.and_assoc, hcleared]
  exact (congrArg (target.bits &&& ·) BitVec.and_zero).trans BitVec.and_zero

end Targets

/-- The messages of a scope that wait, that come in and that a guard has done with, as it is
given them. -/
def Scope.held (p : Scope) : List SLogMessage := (waiting p.system).map formatted

def cameIn (seen : List TestSeen) : List SLogMessage := (writtenOf seen).map formatted

def wentOut (seen : List TestSeen) : List SLogMessage :=
  seen.filterMap fun
    | .counted msg => some msg
    | .printed _ msg => some msg
    | _ => none

section Seen
variable (seen seen' : List TestSeen)

theorem writtenOf_append : writtenOf (seen ++ seen') = writtenOf seen ++ writtenOf seen' := List.filterMap_append

theorem countedOf_append : countedOf (seen ++ seen') = countedOf seen ++ countedOf seen' := List.filterMap_append

theorem printedOf_append : printedOf (seen ++ seen') = printedOf seen ++ printedOf seen' := List.filterMap_append

theorem cameIn_append : cameIn (seen ++ seen') = cameIn seen ++ cameIn seen' := by
  unfold cameIn
  rw [writtenOf_append, List.map_append]

theorem wentOut_append : wentOut (seen ++ seen') = wentOut seen ++ wentOut seen' := List.filterMap_append

theorem cameIn_flatten (outs : List (List TestSeen)) : cameIn outs.flatten = outs.flatMap cameIn := by
  induction outs with
  | nil => rfl
  | cons seen rest ih => rw [List.flatten_cons, cameIn_append, ih, List.flatMap_cons]

theorem wentOut_flatten (outs : List (List TestSeen)) : wentOut outs.flatten = outs.flatMap wentOut :=
  List.filterMap_flatten.trans List.flatMap_def.symm

theorem wentOut_perm : (wentOut seen).Perm (countedOf seen ++ printedOf seen) := by
  induction seen with
  | nil => exact .refl []
  | cons one rest ih =>
    cases one with
    | counted msg => exact ih.cons msg
    | printed stream msg => exact (ih.cons msg).trans List.perm_middle.symm
    | written msg => exact ih
    | fallback level message => exact ih
    | failure text => exact ih

end Seen

/-- Two states of one guard, which differ in what is counted so far. -/
def SameGuard (g g' : CExpectedLog) : Prop := g' = { g with numWarnings := g'.numWarnings, numErrors := g'.numErrors }

namespace SameGuard
variable {g g' g'' : CExpectedLog}

theorem trans (h : SameGuard g g') (h' : SameGuard g' g'') : SameGuard g g'' := by
  unfold SameGuard at h'
  rw [h] at h'
  exact h'

theorem key_eq (h : SameGuard g g') : g'.key = g.key := (congrArg CExpectedLog.key h).trans rfl

theorem channel_eq (h : SameGuard g g') : g'.channel = g.channel := (congrArg CExpectedLog.channel h).trans rfl

theorem isEchoing_eq (h : SameGuard g g') : g'.isEchoing = g.isEchoing :=
  (congrArg CExpectedLog.isEchoing h).trans rfl

theorem savedTargets_eq (h : SameGuard g g') : g'.savedTargets = g.savedTargets :=
  (congrArg CExpectedLog.savedTargets h).trans rfl

theorem isArmed_eq (h : SameGuard g g') : g'.isArmed = g.isArmed := (congrArg CExpectedLog.isArmed h).trans rfl

end SameGuard

/-- What a guard that echoes makes of the messages that it hears. -/
structure Hears (g g' : CExpectedLog) (msgs : List SLogMessage) (seen : List TestSeen) : Prop where
  same : SameGuard g g'
  written : writtenOf seen = []
  counted : countedOf seen = msgs.filter (expects g.channel)
  printed : printedOf seen = msgs.filter fun msg => !expects g.channel msg
  warnings : g'.numWarnings = g.numWarnings + UInt32.ofNat ((countedOf seen).countP fun msg => msg.level = .Warning)
  errors : g'.numErrors = g.numErrors + UInt32.ofNat ((countedOf seen).countP fun msg => msg.level = .Error)

namespace Hears
variable {g g' g'' : CExpectedLog} {msgs msgs' : List SLogMessage} {seen seen' : List TestSeen}

theorem went (h : Hears g g' msgs seen) : (wentOut seen).Perm msgs := by
  have hsplit := wentOut_perm seen
  rw [h.counted, h.printed] at hsplit
  exact hsplit.trans (List.filter_append_perm _ _)

theorem nil (g : CExpectedLog) : Hears g g [] [] :=
  ⟨rfl, rfl, rfl, rfl, (UInt32.add_zero _).symm, (UInt32.add_zero _).symm⟩

theorem append (h : Hears g g' msgs seen) (h' : Hears g' g'' msgs' seen') : Hears g g'' (msgs ++ msgs') (seen ++ seen') := by
  have hchannel := h.same.channel_eq
  refine ⟨h.same.trans h'.same, ?_, ?_, ?_, ?_, ?_⟩
  · rw [writtenOf_append, h.written, h'.written]
    rfl
  · rw [countedOf_append, h.counted, h'.counted, hchannel, List.filter_append]
  · rw [printedOf_append, h.printed, h'.printed, hchannel, List.filter_append]
  · rw [h'.warnings, h.warnings, countedOf_append, List.countP_append, UInt32.ofNat_add, UInt32.add_assoc]
  · rw [h'.errors, h.errors, countedOf_append, List.countP_append, UInt32.ofNat_add, UInt32.add_assoc]

theorem count (hechoing : g.isEchoing = true) (msg : SLogMessage) : Hears g (g.Count msg).1 [msg] (g.Count msg).2 := by
  unfold CExpectedLog.Count
  split
  · rename_i hwarning
    have hexpects : expects g.channel msg = true := by simp [expects, hwarning]
    refine ⟨rfl, rfl, ?_, ?_, ?_, ?_⟩
    · simp [countedOf, hexpects]
    · simp [printedOf, hexpects]
    · simp [countedOf, hwarning.2]
    · simp [countedOf, hwarning.2, ELogLevel.Warning, ELogLevel.Error]
  · rename_i hwarning
    split
    · rename_i herror
      have hexpects : expects g.channel msg = true := by simp [expects, herror]
      refine ⟨rfl, rfl, ?_, ?_, ?_, ?_⟩
      · simp [countedOf, hexpects]
      · simp [printedOf, hexpects]
      · simp [countedOf, herror.2, ELogLevel.Warning, ELogLevel.Error]
      · simp [countedOf, herror.2]
    · rename_i herror
      have hexpects : expects g.channel msg = false := by
        rw [Bool.eq_false_iff]
        intro hexpects
        simp only [expects, Bool.and_eq_true, Bool.or_eq_true, decide_eq_true_eq] at hexpects
        exact hexpects.2.elim (fun h => hwarning ⟨hexpects.1, h⟩) fun h => herror ⟨hexpects.1, h⟩
      have hecho : writtenOf (CExpectedLog.Echo msg) = [] ∧ countedOf (CExpectedLog.Echo msg) = [] ∧
          printedOf (CExpectedLog.Echo msg) = [msg] := by
        unfold CExpectedLog.Echo
        split
        · exact ⟨rfl, rfl, rfl⟩
        · exact ⟨rfl, rfl, rfl⟩
      refine ⟨rfl, hecho.1, ?_, ?_, ?_, ?_⟩
      · rw [hecho.2.1, List.filter_singleton, hexpects, cond_false]
      · rw [hecho.2.2, List.filter_singleton, hexpects, Bool.not_false, cond_true]
      · rw [hecho.2.1]
        exact (UInt32.add_zero _).symm
      · rw [hecho.2.1]
        exact (UInt32.add_zero _).symm

theorem hear (hechoing : g.isEchoing = true) (msgs : List SLogMessage) : Hears g (g.hear msgs).1 msgs (g.hear msgs).2 := by
  induction msgs generalizing g with
  | nil => exact .nil g
  | cons msg rest ih =>
    have hcount := Hears.count hechoing msg
    exact hcount.append (ih (hcount.same.isEchoing_eq.trans hechoing))

end Hears

/-- The message that Write makes. -/
def messageOf (s : CLogSystem) (c : CLog) (level : ELogLevel) (target : ETarget) (text : String) (now : Now) :
    SLogMessage :=
  { timestamp := now.timestamp, level, target := target &&& s.enabledTargets, channelName := c.name, message := text
    formattedTimestamp := now.formattedTimestamp }

/-- The log system stands as the guard `g` has set it up. -/
structure Armed (hash : String → UInt64) (g : CExpectedLog) (p : Scope) : Prop where
  indexed : Indexed hash p.system
  initialized : p.system.initialized = true
  targets : p.system.enabledTargets = silenced g.savedTargets
  hearing : p.system.hearing g.key = [⟨g.key, .formatted⟩]
  echoing : g.isEchoing = true
  same : SameGuard g p.guard

namespace Armed
variable {g : CExpectedLog} {p q : Scope} {seen : List TestSeen}

theorem hears (h : Armed hash g p) (msgs : List SLogMessage) :
    Hears p.guard (p.guard.hear msgs).1 msgs (p.guard.hear msgs).2 := .hear (h.same.isEchoing_eq.trans h.echoing) msgs

/-- The guard takes what is handed to it, and keeps waiting for the rest. -/
theorem relays (h : Armed hash g p) (hindexed : Indexed hash t) (hrelays : Relays ⟨g.key, .formatted⟩ p.system t out) :
    Armed hash g (p.heard t out []).1 ∧
      Machine.Balances Scope.held cameIn wentOut p (p.heard t out []).1 (p.heard t out []).2 [] := by
  have hhears := h.hears (calledOf p.guard.key out)
  refine ⟨⟨hindexed, hrelays.initialized h.initialized, hrelays.targets.trans h.targets, hrelays.hearing.trans h.hearing,
    h.echoing, h.same.trans hhears.same⟩, ?_⟩
  have hmoved := hrelays.moved
  rw [← h.same.key_eq] at hmoved
  unfold Machine.Balances cameIn Scope.heard
  simp only [List.nil_append, List.append_nil]
  rw [hhears.written, List.map_nil, List.append_nil]
  exact hmoved.trans (hhears.went.symm.append_right _)

/-- Nobody hears of it, and the guard and its listener stay. -/
theorem unheard (h : Armed hash g p) (hindexed : Indexed hash t) (honly : OnlyLogs p.system t)
    (hout : calledOf p.guard.key out = []) (shown : List TestSeen) :
    Armed hash g (p.heard t out shown).1 ∧ (p.heard t out shown).2 = shown ∧ (p.heard t out shown).1.system = t := by
  have hguard : (p.heard t out shown).1.guard = p.guard := by
    unfold Scope.heard
    rw [hout]
    rfl
  refine ⟨⟨hindexed, honly.initialized.trans h.initialized, honly.enabledTargets.trans h.targets,
    (honly.hearing g.key).trans h.hearing, h.echoing, ?_⟩, ?_, rfl⟩
  · rw [hguard]
    exact h.same
  · unfold Scope.heard
    rw [hout]
    exact List.append_nil shown

section Write
variable {c : CLog} {level : ELogLevel} {target : ETarget} {now : Now}

/-- Write prints nothing while the terminal is off. -/
theorem shows_write (h : Armed hash g p) (hc : p.system.log? log = some c) (level : ELogLevel) (target : ETarget)
    (text : String) (now : Now) :
    cameIn (shows p.system (.write log level target text now)) =
      (if level &&& c.levelMask = .None then [] else [formatted (messageOf p.system c level target text now)]) ∧
    wentOut (shows p.system (.write log level target text now)) = [] := by
  have hterminal : (target &&& p.system.enabledTargets) &&& .Terminal = .None := by
    rw [h.targets]
    exact silenced_terminal target g.savedTargets
  unfold shows
  simp only [hc, h.initialized, hterminal]
  split
  · exact ⟨rfl, rfl⟩
  · exact ⟨rfl, rfl⟩

/-- While a guard is armed, a message waits if it passes its channel's levels and goes to the listeners. -/
theorem write_eq (h : Armed hash g p) (hc : p.system.log? log = some c) (level : ELogLevel) (target : ETarget)
    (text : String) (now : Now) :
    p.system.write log level target text now = some
      (if level &&& c.levelMask ≠ .None ∧ target &&& .Listeners ≠ .None then
        (p.system.setLog log
          { c with pendingDispatch := c.pendingDispatch ++ [messageOf p.system c level target text now] },
          [.accepted log (messageOf p.system c level target text now)])
      else (p.system, [])) := by
  have hlisteners : (target &&& p.system.enabledTargets) &&& .Listeners = target &&& .Listeners := by
    rw [h.targets]
    exact silenced_listeners target g.savedTargets
  unfold CLogSystem.write
  simp only [hc, h.initialized, hlisteners, true_and, Option.map_some]
  rfl

theorem heard_write_iff {text : String} (hc : p.system.log? log = some c) :
    p.Heard (.call (.write log level target text now)) ↔ (level &&& c.levelMask ≠ .None →
      target &&& .Listeners ≠ .None ∧ log ∈ p.system.loggers.map Prod.snd) := by
  constructor
  · intro hall
    exact hall c hc
  · intro hone c' hc'
    obtain rfl : c = c' := Option.some.inj (hc.symm.trans hc')
    exact hone

/-- What becomes of a message: it waits, or it is lost. -/
theorem write {text : String} (h : Armed hash g p)
    (hstep : p.step hash (.call (.write log level target text now)) = some (q, seen)) :
    Armed hash g q ∧ ∃ lost, Machine.Balances Scope.held cameIn wentOut p q seen lost ∧
      (lost = [] ↔ p.Heard (.call (.write log level target text now))) := by
  obtain ⟨⟨t, out⟩, hwrite, heq⟩ := Option.map_eq_some_iff.mp hstep
  have hindexed := h.indexed.step hwrite
  obtain ⟨c, hc, -⟩ := Option.map_eq_some_iff.mp hwrite
  obtain ⟨hcame, hwent⟩ := h.shows_write hc level target text now
  have hturn := Option.some.inj ((h.write_eq hc level target text now).symm.trans hwrite)
  have honly : OnlyLogs p.system t ∧ calledOf p.guard.key out = [] := by
    split at hturn
    · cases hturn
      exact ⟨.setLog p.system log _, rfl⟩
    · cases hturn
      exact ⟨.refl p.system, rfl⟩
  obtain ⟨harmed, hseen, hsystem⟩ := h.unheard hindexed honly.1 honly.2 (shows p.system (.write log level target text now))
  simp only at heq
  rw [heq] at harmed hseen hsystem
  subst hseen hsystem
  have hbalance : ∀ lost, Machine.Balances Scope.held cameIn wentOut p q
      (shows p.system (.write log level target text now)) lost ↔
      (p.held ++ if level &&& c.levelMask = .None then [] else [formatted (messageOf p.system c level target text now)]).Perm
        (q.held ++ lost) := by
    intro lost
    unfold Machine.Balances
    rw [hcame, hwent, List.nil_append]
  refine ⟨harmed, ?_⟩
  simp only [hbalance, heard_write_iff hc]
  by_cases hmask : level &&& c.levelMask = .None
  · rw [if_neg (fun hboth => hboth.1 hmask)] at hturn
    have hsame : q.held = p.held := congrArg (fun s => (waiting s).map formatted) (congrArg Prod.fst hturn).symm
    refine ⟨[], ?_, iff_of_true rfl fun hpasses => absurd hmask hpasses⟩
    rw [if_pos hmask, hsame]
  · rw [if_neg hmask]
    by_cases htarget : target &&& .Listeners = .None
    · rw [if_neg (fun hboth => hboth.2 htarget)] at hturn
      have hsame : q.held = p.held := congrArg (fun s => (waiting s).map formatted) (congrArg Prod.fst hturn).symm
      refine ⟨_, List.Perm.of_eq (congrArg (· ++ _) hsame.symm), ?_⟩
      exact iff_of_false (List.cons_ne_nil _ _) fun hpasses => (hpasses hmask).1 htarget
    · rw [if_pos ⟨hmask, htarget⟩] at hturn
      have hq : q.system = p.system.setLog log
          { c with pendingDispatch := c.pendingDispatch ++ [messageOf p.system c level target text now] } :=
        (congrArg Prod.fst hturn).symm
      obtain ⟨hregistered, hlost⟩ := waiting_accept h.indexed hc (messageOf p.system c level target text now)
      by_cases hlog : log ∈ p.system.loggers.map Prod.snd
      · refine ⟨[], ?_, iff_of_true rfl fun _ => ⟨htarget, hlog⟩⟩
        rw [List.append_nil]
        unfold Scope.held
        rw [hq]
        exact (((hregistered hlog).map formatted).trans (List.Perm.of_eq List.map_append)).symm
      · have hsame : q.held = p.held := by
          unfold Scope.held
          rw [hq, hlost hlog]
        refine ⟨_, List.Perm.of_eq (congrArg (· ++ _) hsame.symm), ?_⟩
        exact iff_of_false (List.cons_ne_nil _ _) fun hpasses => hlog (hpasses hmask).2

end Write

theorem shows_other {call : LogCall} (hwrite : ∀ log level target text now, call ≠ .write log level target text now)
    (s : CLogSystem) : shows s call = [] := by
  cases call with
  | write log level target text now => exact absurd rfl (hwrite log level target text now)
  | _ => rfl

theorem step (h : Armed hash g p) (call : CalmCall g.key) (hstep : p.step hash call.1 = some (q, seen)) :
    Armed hash g q ∧ ∃ lost, Machine.Balances Scope.held cameIn wentOut p q seen lost ∧ (lost = [] ↔ p.Heard call.1) := by
  obtain ⟨call, hcalm⟩ := call
  cases call with
  | turn log =>
    simp only [Scope.step] at hstep
    split at hstep
    · rename_i hlog
      cases hstep
      have hindexed := h.indexed.keep (p.system.dispatchPending_keeps log)
      obtain ⟨harmed, hbalance⟩ := h.relays hindexed (.turn h.indexed h.hearing hlog)
      exact ⟨harmed, [], hbalance, iff_of_true rfl trivial⟩
    · cases hstep
  | call call =>
    by_cases hwrite : ∃ log level target text now, call = .write log level target text now
    · obtain ⟨log, level, target, text, now, rfl⟩ := hwrite
      exact h.write hstep
    · have hother : ∀ log level target text now, call ≠ .write log level target text now :=
        fun log level target text now heq => hwrite ⟨log, level, target, text, now, heq⟩
      have htargets : ∀ targets, call ≠ .setEnabledTargets targets := by
        rintro targets rfl
        cases hcalm
      obtain ⟨hstays, hrekeys⟩ := ScopeCall.calm_call hcalm
      obtain ⟨⟨t, out⟩, hcall, heq⟩ := Option.map_eq_some_iff.mp hstep
      rw [shows_other hother] at heq
      cases heq
      obtain ⟨harmed, hbalance⟩ := h.relays (h.indexed.step hcall)
        (step_relays h.indexed h.hearing hstays hrekeys htargets hother hcall)
      refine ⟨harmed, [], hbalance, iff_of_true rfl ?_⟩
      cases call with
      | write log level target text now => exact absurd rfl (hother log level target text now)
      | _ => trivial

/-- What is counted and printed in a step is what the guard makes of what it hears. -/
theorem step_hears (h : Armed hash g p) {call : ScopeCall} (hstep : p.step hash call = some (q, seen)) :
    ∃ msgs shown heard, seen = shown ++ heard ∧ wentOut shown = [] ∧ Hears p.guard q.guard msgs heard := by
  cases call with
  | turn log =>
    simp only [Scope.step] at hstep
    split at hstep
    · cases hstep
      exact ⟨_, [], _, rfl, rfl, h.hears _⟩
    · cases hstep
  | call call =>
    obtain ⟨⟨t, out⟩, hcall, heq⟩ := Option.map_eq_some_iff.mp hstep
    cases heq
    refine ⟨_, shows p.system call, _, rfl, ?_, h.hears _⟩
    cases call with
    | write log level target text now =>
      obtain ⟨c, hc, -⟩ := Option.map_eq_some_iff.mp hcall
      exact (h.shows_write hc level target text now).2
    | _ => rfl

end Armed

/-- What the guard `g` has counted and printed so far. -/
structure Booked (g guard : CExpectedLog) (got : List TestSeen) : Prop where
  expected : ∀ msg ∈ countedOf got, expects g.channel msg = true
  others : ∀ msg ∈ printedOf got, expects g.channel msg = false
  warnings : guard.numWarnings = UInt32.ofNat ((countedOf got).countP fun msg => msg.level = .Warning)
  errors : guard.numErrors = UInt32.ofNat ((countedOf got).countP fun msg => msg.level = .Error)

namespace Booked
variable {g guard guard' : CExpectedLog} {got seen : List TestSeen} {msgs : List SLogMessage}

theorem quiet (h : Booked g guard got) (hseen : wentOut seen = []) : Booked g guard (got ++ seen) := by
  have hsplit := wentOut_perm seen
  rw [hseen] at hsplit
  obtain ⟨hcounted, hprinted⟩ := List.append_eq_nil_iff.mp hsplit.nil_eq.symm
  have hall : countedOf (got ++ seen) = countedOf got := by rw [countedOf_append, hcounted, List.append_nil]
  have hothers : printedOf (got ++ seen) = printedOf got := by rw [printedOf_append, hprinted, List.append_nil]
  refine ⟨?_, ?_, ?_, ?_⟩
  · rw [hall]
    exact h.expected
  · rw [hothers]
    exact h.others
  · rw [hall]
    exact h.warnings
  · rw [hall]
    exact h.errors

theorem hears (h : Booked g guard got) (hchannel : guard.channel = g.channel) (hhears : Hears guard guard' msgs seen) :
    Booked g guard' (got ++ seen) := by
  refine ⟨fun msg hmsg => ?_, fun msg hmsg => ?_, ?_, ?_⟩
  · rw [countedOf_append, List.mem_append] at hmsg
    cases hmsg with
    | inl hold => exact h.expected msg hold
    | inr hnew =>
      rw [hhears.counted, hchannel] at hnew
      exact (List.mem_filter.mp hnew).2
  · rw [printedOf_append, List.mem_append] at hmsg
    cases hmsg with
    | inl hold => exact h.others msg hold
    | inr hnew =>
      rw [hhears.printed, hchannel] at hnew
      exact (Bool.not_eq_true' _).mp (List.mem_filter.mp hnew).2
  · rw [hhears.warnings, h.warnings, countedOf_append, List.countP_append, UInt32.ofNat_add]
  · rw [hhears.errors, h.errors, countedOf_append, List.countP_append, UInt32.ofNat_add]

theorem start (hwarnings : g.numWarnings = 0) (herrors : g.numErrors = 0) : Booked g g [] :=
  ⟨fun _ hmsg => absurd hmsg List.not_mem_nil, fun _ hmsg => absurd hmsg List.not_mem_nil, hwarnings, herrors⟩

/-- Where the books of a scope balance, nothing is lost exactly if nothing is missing from them. -/
theorem nothingLost_iff (h : Booked g guard got) {lost : List SLogMessage}
    (hbalance : (cameIn got).Perm (wentOut got ++ lost)) : NothingLost g.channel guard got ↔ lost = [] := by
  replace hbalance := hbalance.trans ((wentOut_perm got).append_right lost)
  constructor
  · intro hall
    have hsplit := (List.filter_append_perm (expects g.channel) (writtenOf got)).length_eq
    have hcounted := hall.counted.length_eq
    have hprinted := hall.printed.length_eq
    have htotal := hbalance.length_eq
    simp only [cameIn, List.length_map, List.length_append] at hsplit hcounted hprinted htotal
    exact List.length_eq_zero_iff.mp (by omega)
  · rintro rfl
    rw [List.append_nil] at hbalance
    have hkept : (countedOf got).filter (expects g.channel) = countedOf got := List.filter_eq_self.mpr h.expected
    have hnone : (printedOf got).filter (expects g.channel) = [] :=
      List.filter_eq_nil_iff.mpr fun msg hmsg => Bool.eq_false_iff.mp (h.others msg hmsg)
    have hnotKept : (countedOf got).filter (fun msg => !expects g.channel msg) = [] := by
      refine List.filter_eq_nil_iff.mpr fun msg hmsg => ?_
      rw [h.expected msg hmsg]
      exact Bool.false_ne_true
    have hnotNone : (printedOf got).filter (fun msg => !expects g.channel msg) = printedOf got := by
      refine List.filter_eq_self.mpr fun msg hmsg => ?_
      rw [h.others msg hmsg]
      rfl
    have hcounted : (((writtenOf got).filter (expects g.channel)).map formatted).Perm (countedOf got) := by
      have hfilter := hbalance.filter (expects g.channel)
      unfold cameIn at hfilter
      rw [List.filter_append, hkept, hnone, List.append_nil, List.filter_map] at hfilter
      exact hfilter
    have hprinted : (((writtenOf got).filter fun msg => !expects g.channel msg).map formatted).Perm (printedOf got) := by
      have hfilter := hbalance.filter fun msg => !expects g.channel msg
      unfold cameIn at hfilter
      rw [List.filter_append, hnotKept, hnotNone, List.nil_append, List.filter_map] at hfilter
      exact hfilter
    refine ⟨hcounted.symm, hprinted.symm, ?_, ?_⟩
    · rw [h.warnings, ← hcounted.countP_eq, List.countP_map]
      rfl
    · rw [h.errors, ← hcounted.countP_eq, List.countP_map]
      rfl

end Booked

section Lifetime
variable {test test' : TestLog} {g guard : CExpectedLog} {p : Scope} {seen : List TestSeen} {channel : String}
variable {numWarnings numErrors : UInt32}

/-- How an armed guard begins: nothing waits, and its listener is registered. -/
theorem construct_spec (hindexed : Indexed hash test.system)
    (h : CExpectedLog.construct hash test key channel numWarnings numErrors order = some (test', g, seen))
    (harmed : g.isArmed = true) (hterminal : test.system.enabledTargets &&& .Terminal ≠ .None) :
    g.key = key ∧ g.channel = channel ∧ g.savedTargets = test.system.enabledTargets ∧ Booked g g [] ∧
      Armed hash g ⟨test'.system, g⟩ ∧ waiting test'.system = [] := by
  simp only [CExpectedLog.construct] at h
  split at h
  · cases h
    cases harmed
  · rename_i hup
    split at h
    · cases h
      cases harmed
    · split at h
      · cases h
        cases harmed
      · split at h
        · cases h
          cases harmed
        · obtain ⟨⟨u, out⟩, hregister, heq⟩ := Option.map_eq_some_iff.mp h
          cases heq
          obtain ⟨v, heard, hdispatch, hfree, rfl, -⟩ := registerListener_spec hregister
          have hsilenced : Indexed hash { test.system with enabledTargets := silenced test.system.enabledTargets } :=
            hindexed.keep ⟨rfl, rfl⟩
          obtain ⟨-, honly, -, hnone⟩ := hsilenced.dispatch hdispatch
          have hsystem : Indexed hash { v with listeners := v.listeners ++ [⟨key, .formatted⟩] } :=
            hsilenced.keep (CLogSystem.registerListener_keeps hregister)
          refine ⟨rfl, rfl, rfl, .start rfl rfl, ⟨hsystem, ?_, honly.enabledTargets, ?_, ?_, rfl⟩, hnone⟩
          · exact honly.initialized.trans ((Bool.not_eq_false _).mp hup)
          · unfold CLogSystem.hearing
            rw [honly.listeners, List.filter_append, hfree]
            simp
          · exact decide_eq_true hterminal

/-- How an armed guard ends: it hears all that waits, and gives the targets back. -/
theorem destruct_spec (h : Armed hash g p) (harmed : g.isArmed = true) {isAnyArmed : Bool}
    (hend : p.guard.destruct ⟨p.system, isAnyArmed⟩ order = some (test, guard, seen)) :
    test.system.enabledTargets = g.savedTargets ∧ ∃ msgs heard failures, seen = heard ++ failures ∧
      writtenOf failures = [] ∧ wentOut failures = [] ∧ Hears p.guard guard msgs heard ∧ p.held.Perm msgs := by
  unfold CExpectedLog.destruct at hend
  rw [h.same.isArmed_eq, if_pos harmed] at hend
  obtain ⟨⟨t, out⟩, hdispatch, heq⟩ := Option.map_eq_some_iff.mp hend
  cases heq
  have hfailures : ∀ channel what num numExpected, writtenOf (CExpectedLog.expectEqual channel what num numExpected) = [] ∧
      wentOut (CExpectedLog.expectEqual channel what num numExpected) = [] := by
    intro channel what num numExpected
    unfold CExpectedLog.expectEqual
    split
    · exact ⟨rfl, rfl⟩
    · exact ⟨rfl, rfl⟩
  obtain ⟨hwarnings, hnoWarnings⟩ := hfailures p.guard.channel "Warnings" _ p.guard.numExpectedWarnings
  obtain ⟨herrors, hnoErrors⟩ := hfailures p.guard.channel "Errors" _ p.guard.numExpectedErrors
  obtain ⟨-, -, -, hnone⟩ := h.indexed.dispatch hdispatch
  have hrelays : Relays ⟨g.key, .formatted⟩ p.system t out := .dispatch h.indexed h.hearing hdispatch
  have hmoved := hrelays.moved
  rw [hnone, List.map_nil, List.append_nil] at hmoved
  refine ⟨h.same.savedTargets_eq, calledOf p.guard.key out, _, _, List.append_assoc .., ?_, ?_, h.hears _, ?_⟩
  · rw [writtenOf_append, hwarnings, herrors]
    rfl
  · rw [wentOut_append, hnoWarnings, hnoErrors]
    rfl
  · rw [h.same.key_eq]
    exact hmoved

/-- The books of a whole scope. -/
theorem Armed.run_booked {q : Scope} {calls : List (CalmCall g.key)} {outs : List (List TestSeen)} (h : Armed hash g p)
    (hbooked : Booked g p.guard []) (hrun : (scope hash g.key).run p calls = some (q, outs)) :
    Booked g q.guard outs.flatten := by
  have hbooks : Armed hash g q ∧ Booked g q.guard outs.flatten := by
    refine Machine.run_invariant (M := scope hash g.key) (fun _ outs p => Armed hash g p ∧ Booked g p.guard outs.flatten)
      [] [] ?_ ⟨h, hbooked⟩ hrun
    rintro - outs p call q seen ⟨hp, hbooked⟩ hstep
    refine ⟨(hp.step call hstep).1, ?_⟩
    obtain ⟨msgs, shown, heard, rfl, hshown, hheard⟩ := hp.step_hears hstep
    rw [List.flatten_append, List.flatten_singleton, ← List.append_assoc]
    exact (hbooked.quiet hshown).hears hp.same.channel_eq hheard
  exact hbooks.2

/-- A guard loses none of the messages of its scope exactly as long as each of them goes to the
listeners, from a channel that they are reached from. The targets are given back in any case. -/
theorem expectedLog_loses_nothing_iff {pre : List LogCall} {os : List (List LogSeen)} {isAnyArmed : Bool}
    {calls : List (CalmCall key)} {first last : List Nat} {failures : List TestSeen} {outs : List (List TestSeen)}
    (hpre : (logSystem hash).run {} pre = some (s, os))
    (hconstruct : CExpectedLog.construct hash ⟨s, isAnyArmed⟩ key channel numWarnings numErrors first =
      some (test, g, failures))
    (harmed : g.isArmed = true) (hterminal : s.enabledTargets &&& .Terminal ≠ .None)
    (hrun : (scope hash key).run ⟨test.system, g⟩ calls = some (p, outs))
    (hdestruct : p.guard.destruct ⟨p.system, test.isAnyArmed⟩ last = some (test', guard, seen)) :
    (NothingLost channel guard (outs.flatten ++ seen) ∧ test'.system.enabledTargets = s.enabledTargets) ↔
      (scope hash key).Along (fun p call => p.Heard call.1) ⟨test.system, g⟩ calls := by
  obtain ⟨rfl, rfl, hsaved, hstart, hbegin, hnone⟩ := construct_spec (run_named hpre).1 hconstruct harmed hterminal
  obtain ⟨hend, lost, hbalance, hlost⟩ := Machine.run_balances (M := scope hash g.key) (P := fun p call => p.Heard call.1)
    (Armed hash g) (fun p call q seen hp hstep => hp.step call hstep) hbegin hrun
  obtain ⟨htargets, msgs, heard, tail, rfl, hwritten, hwent, hheard, hwaiting⟩ := destruct_spec hend harmed hdestruct
  have hguard : Booked g guard (outs.flatten ++ (heard ++ tail)) := by
    rw [← List.append_assoc]
    exact ((hbegin.run_booked hstart hrun).hears hend.same.channel_eq hheard).quiet hwent
  have hcame : cameIn (outs.flatten ++ (heard ++ tail)) = outs.flatMap cameIn := by
    have hlater : writtenOf (heard ++ tail) = [] := by rw [writtenOf_append, hheard.written, hwritten, List.nil_append]
    rw [cameIn_append, cameIn_flatten, cameIn, hlater, List.map_nil, List.append_nil]
  have hgone : wentOut (outs.flatten ++ (heard ++ tail)) = outs.flatMap wentOut ++ wentOut heard := by
    rw [wentOut_append, wentOut_append, wentOut_flatten, hwent, List.append_nil]
  have htotal : (cameIn (outs.flatten ++ (heard ++ tail))).Perm (wentOut (outs.flatten ++ (heard ++ tail)) ++ lost) := by
    have hempty : Scope.held ⟨test.system, g⟩ = [] := by rw [Scope.held, hnone, List.map_nil]
    rw [hempty, List.nil_append] at hbalance
    rw [hcame, hgone]
    exact hbalance.trans (((hwaiting.trans hheard.went.symm).append_left _).append_right lost)
  rw [hguard.nothingLost_iff htotal, hlost]
  exact and_iff_left (htargets.trans hsaved)

end Lifetime

/-- A log system with one channel. -/
def netSystem : CLogSystem := { initialized := true, loggers := [(3, 0)], logs := [some { name := "Net" }] }

/-- The guard of its one Warning, and the log system that it stands in. -/
def netGuard : CExpectedLog :=
  { key := 7, channel := "Net", numExpectedWarnings := 1, savedTargets := .All, isEchoing := true, isArmed := true }

def netTest : TestLog :=
  { system := { netSystem with enabledTargets := silenced .All, listeners := [⟨7, .formatted⟩] }, isAnyArmed := true }

/-- A Warning and an Info for `target`, with a dispatch after them. -/
def netCalls (target : ETarget) : List (CalmCall 7) :=
  [⟨.call (.write 0 .Warning target "Timeout" ⟨5, "05"⟩), rfl⟩, ⟨.call (.write 0 .Info target "Closed" ⟨6, "06"⟩), rfl⟩,
   ⟨.turn 0, rfl⟩]

theorem netSystem_run : (logSystem lengthHash).run {} [.Initialize {}, .construct "Net"] = some (netSystem, [[], []]) := by
  decide +kernel

theorem netGuard_construct :
    CExpectedLog.construct lengthHash ⟨netSystem, false⟩ 7 "Net" 1 0 [0] = some (netTest, netGuard, []) := by
  decide +kernel

/-- Of two messages for all targets the guard counts the Warning, and prints the Info. -/
theorem expectedLog_loses_nothing_net :
    ∃ p outs test guard seen,
      (scope lengthHash 7).run ⟨netTest.system, netGuard⟩ (netCalls .All) = some (p, outs) ∧
      p.guard.destruct ⟨p.system, true⟩ [0] = some (test, guard, seen) ∧
      NothingLost "Net" guard (outs.flatten ++ seen) ∧ test.system.enabledTargets = .All := by
  have hheard : (scope lengthHash 7).Along (fun p call => p.Heard call.1) ⟨netTest.system, netGuard⟩ (netCalls .All) := by
    decide
  have hall : ∀ p outs test guard seen,
      (scope lengthHash 7).run ⟨netTest.system, netGuard⟩ (netCalls .All) = some (p, outs) →
      p.guard.destruct ⟨p.system, true⟩ [0] = some (test, guard, seen) →
      NothingLost "Net" guard (outs.flatten ++ seen) ∧ test.system.enabledTargets = .All := by
    intro p outs test guard seen hrun hdestruct
    exact (expectedLog_loses_nothing_iff netSystem_run netGuard_construct rfl (by decide) hrun hdestruct).mpr hheard
  refine ⟨_, _, _, _, _, rfl, rfl, ?_⟩
  exact hall _ _ _ _ _ rfl rfl

/-- Of two messages for the terminal alone it neither counts nor prints any. -/
theorem expectedLog_loses_terminal :
    ∃ p outs test guard seen,
      (scope lengthHash 7).run ⟨netTest.system, netGuard⟩ (netCalls .Terminal) = some (p, outs) ∧
      p.guard.destruct ⟨p.system, true⟩ [0] = some (test, guard, seen) ∧
      (writtenOf (outs.flatten ++ seen)).map SLogMessage.message = ["Timeout", "Closed"] ∧
      countedOf (outs.flatten ++ seen) = [] ∧ printedOf (outs.flatten ++ seen) = [] ∧ guard.numWarnings = 0 :=
  ⟨_, _, _, _, _, rfl, rfl, rfl, rfl, rfl, rfl⟩

end TgeCore.Testing
