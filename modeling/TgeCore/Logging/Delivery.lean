import Mathlib.Data.List.DropRight
import TgeCore.Library.Mixing
import TgeCore.Logging.Registry

namespace TgeCore.Logging
open Library

variable {hash : String → UInt64} {s t : CLogSystem} {log key : Nat} {c : CLog} {out : List LogSeen}

/-- The messages that a channel accepted for the listeners. -/
def acceptedOf (log : Nat) (out : List LogSeen) : List SLogMessage :=
  out.filterMap fun
    | .accepted other msg => if other = log then some msg else none
    | _ => none

/-- The messages of a channel that were dispatched. -/
def dispatchedOf (log : Nat) (out : List LogSeen) : List SLogMessage :=
  out.filterMap fun
    | .dispatched other msg => if other = log then some msg else none
    | _ => none

def dispatched (out : List LogSeen) : List SLogMessage :=
  out.filterMap fun
    | .dispatched _ msg => some msg
    | _ => none

/-- What the system-wide listener with a key was called with. -/
def calledOf (key : Nat) (out : List LogSeen) : List SLogMessage :=
  out.filterMap fun
    | .called other msg => if other = key then some msg else none
    | _ => none

section Seen
variable (log key : Nat) (out out' : List LogSeen)

@[simp] theorem acceptedOf_nil : acceptedOf log [] = [] := rfl

@[simp] theorem dispatchedOf_nil : dispatchedOf log [] = [] := rfl

@[simp] theorem dispatched_nil : dispatched [] = [] := rfl

@[simp] theorem calledOf_nil : calledOf key [] = [] := rfl

@[simp] theorem acceptedOf_append : acceptedOf log (out ++ out') = acceptedOf log out ++ acceptedOf log out' :=
  List.filterMap_append

@[simp] theorem dispatchedOf_append : dispatchedOf log (out ++ out') = dispatchedOf log out ++ dispatchedOf log out' :=
  List.filterMap_append

@[simp] theorem dispatched_append : dispatched (out ++ out') = dispatched out ++ dispatched out' :=
  List.filterMap_append

@[simp] theorem calledOf_append : calledOf key (out ++ out') = calledOf key out ++ calledOf key out' :=
  List.filterMap_append

section FlatMap
variable {α : Type} (xs : List α) (f : α → List LogSeen)

theorem acceptedOf_flatMap : acceptedOf log (xs.flatMap f) = xs.flatMap fun x => acceptedOf log (f x) :=
  List.filterMap_flatMap

theorem dispatchedOf_flatMap : dispatchedOf log (xs.flatMap f) = xs.flatMap fun x => dispatchedOf log (f x) :=
  List.filterMap_flatMap

theorem dispatched_flatMap : dispatched (xs.flatMap f) = xs.flatMap fun x => dispatched (f x) :=
  List.filterMap_flatMap

theorem calledOf_flatMap : calledOf key (xs.flatMap f) = xs.flatMap fun x => calledOf key (f x) :=
  List.filterMap_flatMap

end FlatMap

theorem mem_dispatched {log : Nat} {out : List LogSeen} {msg : SLogMessage} (h : msg ∈ dispatchedOf log out) :
    msg ∈ dispatched out := by
  obtain ⟨seen, hseen, heq⟩ := List.mem_filterMap.mp h
  refine List.mem_filterMap.mpr ⟨seen, hseen, ?_⟩
  cases seen with
  | dispatched other msg' =>
    simp only [Option.ite_none_right_eq_some] at heq
    exact heq.2
  | accepted other msg' => cases heq
  | called other msg' => cases heq
  | channelCalled other other' msg' => cases heq
  | found found => cases heq

theorem dispatchedOf_eq_nil {log : Nat} {out : List LogSeen} (h : dispatched out = []) : dispatchedOf log out = [] := by
  refine List.eq_nil_iff_forall_not_mem.mpr fun msg hmsg => ?_
  have hmem := mem_dispatched hmsg
  rw [h] at hmem
  cases hmem

/-- Calls of listeners are no deliveries of their own. -/
theorem seen_called (l : SListener) (msgs : List SLogMessage) :
    acceptedOf log (msgs.map fun msg => LogSeen.called l.key (l.shown msg)) = [] ∧
    dispatchedOf log (msgs.map fun msg => LogSeen.called l.key (l.shown msg)) = [] ∧
    dispatched (msgs.map fun msg => LogSeen.called l.key (l.shown msg)) = [] ∧
    calledOf key (msgs.map fun msg => LogSeen.called l.key (l.shown msg)) =
      if l.key = key then msgs.map l.shown else [] := by
  refine ⟨?_, ?_, ?_, ?_⟩
  · simp [acceptedOf]
  · simp [dispatchedOf]
  · simp [dispatched]
  · split
    · rename_i hkey
      simp [calledOf, hkey]
    · rename_i hkey
      simp [calledOf, hkey]

end Seen

section Deliver
variable (log key other : Nat) (own global : List SListener) (msg : SLogMessage)

theorem acceptedOf_deliver : acceptedOf log (deliver other own global msg) = [] := by
  simp [acceptedOf, deliver]

theorem dispatchedOf_deliver : dispatchedOf log (deliver other own global msg) = if other = log then [msg] else [] := by
  split
  · rename_i hlog
    simp [dispatchedOf, deliver, hlog]
  · rename_i hlog
    simp [dispatchedOf, deliver, hlog]

theorem dispatched_deliver : dispatched (deliver other own global msg) = [msg] := by
  simp [dispatched, deliver]

theorem calledOf_deliver : calledOf key (deliver other own global msg) =
    (global.filter fun l => l.key = key).map fun l => l.shown msg := by
  have hown : calledOf key (own.map fun l => LogSeen.channelCalled other l.key (l.shown msg)) = [] := by
    simp [calledOf]
  have hglobal : calledOf key (global.map fun l => LogSeen.called l.key (l.shown msg)) =
      (global.filter fun l => l.key = key).map fun l => l.shown msg := by
    induction global with
    | nil => rfl
    | cons l rest ih =>
      rw [List.map_cons, ← List.singleton_append, calledOf_append, ih]
      by_cases hkey : l.key = key
      · simp [calledOf, hkey]
      · simp [calledOf, hkey]
  unfold deliver
  rw [calledOf_append, hglobal, ← List.singleton_append, calledOf_append, hown]
  rfl

end Deliver

namespace CLogSystem

/-- What is pending in a channel. -/
def pendingOf (s : CLogSystem) (log : Nat) : List SLogMessage := ((s.log? log).map CLog.pendingDispatch).getD []

/-- What the listeners get to see when a channel is dispatched. -/
def spoken (s : CLogSystem) (log : Nat) : List LogSeen :=
  (s.pendingOf log).flatMap (deliver log (((s.log? log).map CLog.listeners).getD []) s.listeners)

theorem pendingOf_eq (h : s.log? log = some c) : s.pendingOf log = c.pendingDispatch := by
  unfold pendingOf
  rw [h]
  rfl

theorem dispatchPending_spoken (s : CLogSystem) (log : Nat) : (s.dispatchPending log).2 = s.spoken log := by
  unfold dispatchPending spoken pendingOf
  cases s.log? log with
  | none => rfl
  | some c => rfl

theorem acceptedOf_spoken (s : CLogSystem) (log other : Nat) : acceptedOf log (s.spoken other) = [] := by
  unfold spoken
  rw [acceptedOf_flatMap, List.flatMap_eq_nil_iff]
  intro msg hmsg
  exact acceptedOf_deliver log other _ _ msg

theorem dispatched_spoken (s : CLogSystem) (log : Nat) : dispatched (s.spoken log) = s.pendingOf log := by
  unfold spoken
  rw [dispatched_flatMap]
  simp only [dispatched_deliver, List.flatMap_singleton']

theorem dispatchedOf_spoken (s : CLogSystem) (log other : Nat) :
    dispatchedOf log (s.spoken other) = if other = log then s.pendingOf other else [] := by
  unfold spoken
  rw [dispatchedOf_flatMap]
  simp only [dispatchedOf_deliver]
  split
  · exact List.flatMap_singleton' _
  · rw [List.flatMap_eq_nil_iff]
    intro msg hmsg
    rfl

theorem calledOf_spoken (s : CLogSystem) (key log : Nat) : calledOf key (s.spoken log) =
    (s.pendingOf log).flatMap fun msg => (s.listeners.filter fun l => l.key = key).map fun l => l.shown msg := by
  unfold spoken
  rw [calledOf_flatMap]
  simp only [calledOf_deliver]

theorem spoken_dispatchPending {other : Nat} (hne : other ≠ log) :
    (s.dispatchPending other).1.spoken log = s.spoken log := by
  unfold spoken pendingOf
  rw [dispatchPending_other hne, dispatchPending_listeners]

theorem dispatchAll_listeners (s : CLogSystem) (order : List Nat) : (s.dispatchAll order).1.listeners = s.listeners := by
  induction order generalizing s with
  | nil => rfl
  | cons log rest ih => exact (ih _).trans (dispatchPending_listeners s log)

theorem dispatchAll_spoken {order : List Nat} (hnodup : order.Nodup) :
    (s.dispatchAll order).2 = order.flatMap s.spoken := by
  induction order generalizing s with
  | nil => rfl
  | cons log rest ih =>
    obtain ⟨hfresh, hrest⟩ := List.nodup_cons.mp hnodup
    have hsame : rest.flatMap (s.dispatchPending log).1.spoken = rest.flatMap s.spoken := by
      refine List.flatMap_congr fun other hother => spoken_dispatchPending ?_
      rintro rfl
      exact hfresh hother
    have hunfold : (s.dispatchAll (log :: rest)).2 =
        (s.dispatchPending log).2 ++ ((s.dispatchPending log).1.dispatchAll rest).2 := rfl
    rw [hunfold, ih hrest, dispatchPending_spoken, hsame, List.flatMap_cons]

theorem dispatchAll_other {order : List Nat} (hlog : log ∉ order) : (s.dispatchAll order).1.log? log = s.log? log := by
  induction order generalizing s with
  | nil => rfl
  | cons other rest ih =>
    obtain ⟨hne, hrest⟩ := not_or.mp (mt List.mem_cons.mpr hlog)
    exact (ih hrest).trans (dispatchPending_other (Ne.symm hne))

theorem dispatchAll_self {order : List Nat} (hnodup : order.Nodup) (hlog : log ∈ order) (h : s.log? log = some c) :
    (s.dispatchAll order).1.log? log =
      some { c with pendingDispatch := [], history := popFront (c.history ++ c.pendingDispatch) } := by
  induction order generalizing s with
  | nil => cases hlog
  | cons other rest ih =>
    obtain ⟨hfresh, hrest⟩ := List.nodup_cons.mp hnodup
    by_cases hother : other = log
    · subst hother
      exact (dispatchAll_other hfresh).trans (dispatchPending_self h).1
    · exact ih hrest ((List.mem_cons.mp hlog).resolve_left (Ne.symm hother)) ((dispatchPending_other hother).trans h)

/-- The names that channels are known by. -/
def nameOf (s : CLogSystem) (log : Nat) : Option String := (s.log? log).map CLog.name

theorem nameOf_eq_some {name : String} : s.nameOf log = some name ↔ ∃ c, s.log? log = some c ∧ c.name = name :=
  Option.map_eq_some_iff

end CLogSystem

/-- Every live channel is registered, and all messages bear the name of the channel they are in. -/
structure Channels (hash : String → UInt64) (s : CLogSystem) : Prop where
  indexed : Indexed hash s
  registered : ∀ log c, s.log? log = some c → (hash c.name, log) ∈ s.loggers
  labelled : ∀ log c, s.log? log = some c → ∀ msg ∈ c.history ++ c.pendingDispatch, msg.channelName = c.name
  bounded : ∀ log c, s.log? log = some c → c.history.length ≤ MaxMessages

namespace Channels

theorem nameOf_inj (h : Channels hash s) {other : Nat} {name : String} (hlog : s.nameOf log = some name)
    (hother : s.nameOf other = some name) : log = other := by
  obtain ⟨c, hc, rfl⟩ := CLogSystem.nameOf_eq_some.mp hlog
  obtain ⟨d, hd, hname⟩ := CLogSystem.nameOf_eq_some.mp hother
  have hentry := h.registered other d hd
  rw [hname] at hentry
  exact congrArg Prod.snd (List.inj_on_of_nodup_map h.indexed.unique (h.registered log c hc) hentry rfl)

/-- An order of the registry has each live channel once. -/
theorem order (h : Channels hash s) {order : List Nat} (horder : order.Perm (s.loggers.map Prod.snd)) :
    order.Nodup ∧ ∀ log, log ∈ order ↔ (s.log? log).isSome := by
  refine ⟨horder.nodup_iff.mpr h.indexed.nodup, fun log => ?_⟩
  rw [horder.mem_iff, Option.isSome_iff_exists]
  constructor
  · exact h.indexed.live
  · rintro ⟨c, hc⟩
    exact List.mem_map.mpr ⟨_, h.registered log c hc, rfl⟩

end Channels

/-- What a call does with a channel's messages: those it accepts come last in what is pending,
and those it dispatches are taken from the front and go into the history. -/
structure Passes (log : Nat) (out : List LogSeen) (c c' : CLog) : Prop where
  name : c'.name = c.name
  pending : c.pendingDispatch ++ acceptedOf log out = dispatchedOf log out ++ c'.pendingDispatch
  history : c.history.length ≤ MaxMessages → c'.history = popFront (c.history ++ dispatchedOf log out)
  labelled : ∀ msg ∈ acceptedOf log out, msg.channelName = c.name

theorem popFront_of_le {history : List SLogMessage} (h : history.length ≤ MaxMessages) : popFront history = history := by
  unfold popFront
  rw [Nat.sub_eq_zero_of_le h, List.drop_zero]

theorem length_popFront (history : List SLogMessage) : (popFront history).length ≤ MaxMessages := by
  unfold popFront
  rw [List.length_drop]
  omega

theorem mem_popFront {history : List SLogMessage} {msg : SLogMessage} (h : msg ∈ popFront history) : msg ∈ history :=
  List.mem_of_mem_drop h

namespace Passes
variable {c' : CLog}

theorem idle (hname : c'.name = c.name) (hpending : c'.pendingDispatch = c.pendingDispatch)
    (hhistory : c'.history = c.history) (haccepted : acceptedOf log out = []) (hdispatched : dispatchedOf log out = []) :
    Passes log out c c' := by
  refine ⟨hname, ?_, fun hle => ?_, fun msg hmsg => ?_⟩
  · rw [haccepted, hdispatched, hpending, List.append_nil, List.nil_append]
  · rw [hdispatched, hhistory, List.append_nil, popFront_of_le hle]
  · rw [haccepted] at hmsg
    cases hmsg

theorem bounded (h : Passes log out c c') (hle : c.history.length ≤ MaxMessages) : c'.history.length ≤ MaxMessages := by
  rw [h.history hle]
  exact length_popFront _

/-- Nothing but the channel's own messages gets into it. -/
theorem named (h : Passes log out c c') (hle : c.history.length ≤ MaxMessages)
    (hnamed : ∀ msg ∈ c.history ++ c.pendingDispatch, msg.channelName = c.name) :
    ∀ msg ∈ c'.history ++ c'.pendingDispatch, msg.channelName = c'.name := by
  have hmoved : ∀ msg ∈ dispatchedOf log out ++ c'.pendingDispatch, msg.channelName = c.name := by
    intro msg hmsg
    rw [← h.pending] at hmsg
    cases List.mem_append.mp hmsg with
    | inl hpending => exact hnamed msg (List.mem_append_right _ hpending)
    | inr haccepted => exact h.labelled msg haccepted
  intro msg hmsg
  rw [h.name]
  cases List.mem_append.mp hmsg with
  | inl hhistory =>
    rw [h.history hle] at hhistory
    cases List.mem_append.mp (mem_popFront hhistory) with
    | inl hold => exact hnamed msg (List.mem_append_left _ hold)
    | inr hnew => exact hmoved msg (List.mem_append_left _ hnew)
  | inr hpending => exact hmoved msg (List.mem_append_right _ hpending)

end Passes

/-- What a call does with the messages of all channels, where no channel goes away. -/
structure Turn (s t : CLogSystem) (out : List LogSeen) : Prop where
  live : ∀ log c, s.log? log = some c → ∃ c', t.log? log = some c' ∧ Passes log out c c'
  fresh : ∀ log c, t.log? log = some c → s.log? log = none → c.pendingDispatch = [] ∧ c.history = []
  absent : ∀ log, s.log? log = none → acceptedOf log out = [] ∧ dispatchedOf log out = []
  mixed : Mixes SLogMessage.channelName s.nameOf (fun log => dispatchedOf log out) (dispatched out)

/-- No channel's messages change, nor do the channels. -/
def Still (s t : CLogSystem) : Prop :=
  ∀ log, (t.log? log).map (fun c => (c.name, c.pendingDispatch, c.history)) =
    (s.log? log).map fun c => (c.name, c.pendingDispatch, c.history)

namespace Still

theorem refl (s : CLogSystem) : Still s s := fun _ => rfl

theorem trans {u : CLogSystem} (h : Still s t) (h' : Still t u) : Still s u := fun log => (h' log).trans (h log)

theorem setLog (h : s.log? log = some c) {c' : CLog} (hname : c'.name = c.name)
    (hpending : c'.pendingDispatch = c.pendingDispatch) (hhistory : c'.history = c.history) :
    Still s (s.setLog log c') := by
  intro other
  by_cases hother : log = other
  · subst hother
    rw [CLogSystem.log?_setLog_self h, h, Option.map_some, Option.map_some, hname, hpending, hhistory]
  · rw [CLogSystem.log?_setLog_of_ne hother]

theorem foldl {α : Type} {f : CLogSystem → α → CLogSystem} (hf : ∀ s a, Still s (f s a)) (entries : List α)
    (s : CLogSystem) : Still s (entries.foldl f s) := by
  induction entries generalizing s with
  | nil => exact .refl s
  | cons entry rest ih => exact (hf s entry).trans (ih (f s entry))

theorem setLevelMask (s : CLogSystem) (log : Nat) (level : ELogLevel) : Still s (s.setLevelMask log level) := by
  unfold CLogSystem.setLevelMask
  split
  · rename_i c hlog
    exact .setLog hlog rfl rfl rfl
  · exact .refl s

theorem setLogLevel (hash : String → UInt64) (s : CLogSystem) (name : String) (level : ELogLevel) :
    Still s (s.setLogLevel hash name level).1 := by
  unfold CLogSystem.setLogLevel
  split
  · exact .setLevelMask s _ level
  · exact .refl s

theorem setAllLogLevels (s : CLogSystem) (level : ELogLevel) : Still s (s.setAllLogLevels level) :=
  .foldl (f := fun s (entry : UInt64 × Nat) => s.setLevelMask entry.2 level)
    (fun s entry => .setLevelMask s entry.2 level) s.loggers s

theorem applyConfig (hash : String → UInt64) (s : CLogSystem) (config : LogConfig) :
    Still s (s.applyConfig hash config) := by
  refine Still.trans ?_ (.foldl (f := fun s (entry : String × ELogLevel) => (s.setLogLevel hash entry.1 entry.2).1)
    (fun s entry => .setLogLevel hash s entry.1 entry.2) _ _)
  split
  · exact .setAllLogLevels s _
  · exact .refl s

theorem live (h : Still s t) (hlog : s.log? log = some c) :
    ∃ c', t.log? log = some c' ∧ c'.name = c.name ∧ c'.pendingDispatch = c.pendingDispatch ∧ c'.history = c.history := by
  have hmap := h log
  rw [hlog, Option.map_some] at hmap
  obtain ⟨c', hc', heq⟩ := Option.map_eq_some_iff.mp hmap
  simp only [Prod.mk.injEq] at heq
  exact ⟨c', hc', heq⟩

theorem none_iff (h : Still s t) : t.log? log = none ↔ s.log? log = none := by
  have hmap := h log
  cases ht : t.log? log with
  | none =>
    cases hs : s.log? log with
    | none => rfl
    | some c =>
      rw [ht, hs] at hmap
      cases hmap
  | some c =>
    cases hs : s.log? log with
    | none =>
      rw [ht, hs] at hmap
      cases hmap
    | some c' => simp only [reduceCtorEq]

theorem turn (h : Still s t) (haccepted : ∀ log, acceptedOf log out = []) (hdispatched : dispatched out = []) :
    Turn s t out := by
  have hnone : ∀ log, dispatchedOf log out = [] := fun log => dispatchedOf_eq_nil hdispatched
  refine ⟨fun log c hlog => ?_, fun log c hlog hnew => ?_, fun log hlog => ⟨haccepted log, hnone log⟩, ?_⟩
  · obtain ⟨c', hc', hname, hpending, hhistory⟩ := h.live hlog
    exact ⟨c', hc', .idle hname hpending hhistory (haccepted log) (hnone log)⟩
  · rw [h.none_iff.mpr hnew] at hlog
    cases hlog
  · rw [hdispatched]
    exact Mixes.nil.congr fun log name hname => (hnone log).symm

end Still

section Dispatched
variable {order : List Nat}

/-- All that a dispatch does: every live channel's pending messages are delivered in the order
of the registry, and go into the channel's history. -/
theorem Channels.dispatchListeners (h : Channels hash s) (hdispatch : s.dispatchListeners order = some (t, out)) :
    order.Nodup ∧ (∀ log, log ∈ order ↔ (s.log? log).isSome) ∧ t.listeners = s.listeners ∧
      out = order.flatMap s.spoken ∧
      ∀ log, t.log? log = (s.log? log).map fun c =>
        { c with pendingDispatch := [], history := popFront (c.history ++ c.pendingDispatch) } := by
  unfold CLogSystem.dispatchListeners at hdispatch
  split at hdispatch
  · rename_i horder
    have hall : s.dispatchAll order = (t, out) := Option.some.inj hdispatch
    obtain ⟨hnodup, hmem⟩ := h.order horder
    have hlisteners := s.dispatchAll_listeners order
    have hspoken := CLogSystem.dispatchAll_spoken (s := s) hnodup
    have hself : ∀ log c, log ∈ order → s.log? log = some c → (s.dispatchAll order).1.log? log =
        some { c with pendingDispatch := [], history := popFront (c.history ++ c.pendingDispatch) } :=
      fun log c hlog hc => CLogSystem.dispatchAll_self hnodup hlog hc
    have hother : ∀ log, log ∉ order → (s.dispatchAll order).1.log? log = s.log? log :=
      fun log hlog => CLogSystem.dispatchAll_other hlog
    rw [hall] at hlisteners hspoken hself hother
    refine ⟨hnodup, hmem, hlisteners, hspoken, fun log => ?_⟩
    cases hlog : s.log? log with
    | some c => exact hself log c ((hmem log).mpr (by rw [hlog]; rfl)) hlog
    | none =>
      refine (hother log ?_).trans hlog
      rw [hmem, hlog]
      exact Bool.false_ne_true
  · cases hdispatch

theorem dispatchedOf_order (hnodup : order.Nodup) (hlog : log ∈ order) :
    dispatchedOf log (order.flatMap s.spoken) = s.pendingOf log := by
  rw [dispatchedOf_flatMap]
  simp only [CLogSystem.dispatchedOf_spoken]
  induction order with
  | nil => cases hlog
  | cons other rest ih =>
    obtain ⟨hfresh, hrest⟩ := List.nodup_cons.mp hnodup
    rw [List.flatMap_cons]
    by_cases hother : other = log
    · subst hother
      rw [if_pos rfl, List.flatMap_eq_nil_iff.mpr, List.append_nil]
      intro log hmem
      refine if_neg ?_
      rintro rfl
      exact hfresh hmem
    · rw [if_neg hother, List.nil_append]
      exact ih hrest ((List.mem_cons.mp hlog).resolve_left (Ne.symm hother))

theorem dispatched_order (s : CLogSystem) (order : List Nat) :
    dispatched (order.flatMap s.spoken) = order.flatMap s.pendingOf := by
  rw [dispatched_flatMap]
  simp only [CLogSystem.dispatched_spoken]

theorem acceptedOf_order (s : CLogSystem) (log : Nat) (order : List Nat) :
    acceptedOf log (order.flatMap s.spoken) = [] := by
  rw [acceptedOf_flatMap, List.flatMap_eq_nil_iff]
  intro other hother
  exact s.acceptedOf_spoken log other

theorem Channels.dispatch_turn (h : Channels hash s) (hdispatch : s.dispatchListeners order = some (t, out)) :
    Turn s t out := by
  obtain ⟨hnodup, hmem, hlisteners, rfl, hlogs⟩ := h.dispatchListeners hdispatch
  have hof : ∀ log c, s.log? log = some c → dispatchedOf log (order.flatMap s.spoken) = c.pendingDispatch := by
    intro log c hlog
    rw [dispatchedOf_order hnodup ((hmem log).mpr (by rw [hlog]; rfl)), CLogSystem.pendingOf_eq hlog]
  refine ⟨fun log c hlog => ?_, fun log c hlog hnew => ?_, fun log hlog => ⟨acceptedOf_order s log order, ?_⟩, ?_⟩
  · refine ⟨_, (hlogs log).trans (congrArg _ hlog), rfl, ?_, fun hle => ?_, fun msg hmsg => ?_⟩
    · rw [acceptedOf_order, hof log c hlog]
    · rw [hof log c hlog]
    · rw [acceptedOf_order] at hmsg
      cases hmsg
  · rw [hlogs, hnew] at hlog
    cases hlog
  · rw [dispatchedOf_flatMap, List.flatMap_eq_nil_iff]
    intro other hother
    rw [CLogSystem.dispatchedOf_spoken]
    refine if_neg ?_
    rintro rfl
    have hlive := (hmem other).mp hother
    rw [hlog] at hlive
    cases hlive
  · rw [dispatched_order]
    refine Mixes.congr (Mixes.flatMap hnodup (fun log => ?_) (fun log name hname msg hmsg => ?_) fun log other name => ?_)
      fun log name hname => ?_
    · rw [hmem, CLogSystem.nameOf, Option.isSome_map]
    · obtain ⟨c, hc, rfl⟩ := CLogSystem.nameOf_eq_some.mp hname
      rw [CLogSystem.pendingOf_eq hc] at hmsg
      exact h.labelled log c hc msg (List.mem_append_right _ hmsg)
    · exact h.nameOf_inj
    · obtain ⟨c, hc, rfl⟩ := CLogSystem.nameOf_eq_some.mp hname
      rw [hof log c hc, CLogSystem.pendingOf_eq hc]

end Dispatched

theorem write_turn {level : ELogLevel} {target : ETarget} {message : String} {now : Now}
    (h : s.write log level target message now = some (t, out)) : Turn s t out := by
  obtain ⟨c, hc, heq⟩ := Option.map_eq_some_iff.mp h
  simp only at heq
  split at heq
  · cases heq
    refine ⟨fun other d hd => ?_, fun other d hd hnew => ?_, fun other hother => ⟨?_, rfl⟩, ?_⟩
    · by_cases hother : log = other
      · subst hother
        cases hc.symm.trans hd
        refine ⟨_, CLogSystem.log?_setLog_self hc _, rfl, ?_, fun hle => ?_, fun msg hmsg => ?_⟩
        · simp [acceptedOf, dispatchedOf]
        · have hnone : c.history ++ [] = c.history := List.append_nil _
          exact (popFront_of_le hle).symm.trans (congrArg popFront hnone.symm)
        · simp only [acceptedOf, List.filterMap_cons, if_pos, List.filterMap_nil, List.mem_singleton] at hmsg
          rw [hmsg]
      · exact ⟨d, (CLogSystem.log?_setLog_of_ne hother _).trans hd, .idle rfl rfl rfl (by simp [acceptedOf, hother]) rfl⟩
    · by_cases hother : log = other
      · subst hother
        rw [hc] at hnew
        cases hnew
      · rw [CLogSystem.log?_setLog_of_ne hother, hnew] at hd
        cases hd
    · have hne : log ≠ other := by
        rintro rfl
        rw [hc] at hother
        cases hother
      simp [acceptedOf, hne]
    · exact .nil
  · cases heq
    exact (Still.refl s).turn (fun log => rfl) rfl

theorem construct_turn {name : String} (h : s.construct hash name = some t) : Turn s t [] := by
  unfold CLogSystem.construct at h
  split at h
  · cases h
  · cases h
    refine ⟨fun log c hlog => ⟨c, ?_, .idle rfl rfl rfl rfl rfl⟩, fun log c hlog hnew => ?_, fun log hlog => ⟨rfl, rfl⟩, .nil⟩
    · have hget := CLogSystem.log?_eq_some.mp hlog
      refine CLogSystem.log?_eq_some.mpr ?_
      rw [List.getElem?_append_left (List.getElem?_eq_some_iff.mp hget).1, hget]
    · have hget := CLogSystem.log?_eq_some.mp hlog
      rw [List.getElem?_append] at hget
      split at hget
      · rw [CLogSystem.log?_eq_some.mpr hget] at hnew
        cases hnew
      · have hmem := List.mem_of_getElem? hget
        cases List.mem_singleton.mp hmem
        exact ⟨rfl, rfl⟩

/-- What registering does: a dispatch, and then the new listener is called with the history. -/
theorem registerListener_spec {l : SListener} {history : EHistory} {order : List Nat}
    (h : s.registerListener l history order = some (t, out)) :
    ∃ u seen, s.dispatchListeners order = some (u, seen) ∧ (s.listeners.filter fun other => other.key = l.key) = [] ∧
      t = { u with listeners := u.listeners ++ [l] } ∧
      out = seen ++ (if history = .flush then u.replay order else []).map fun msg => LogSeen.called l.key (l.shown msg) := by
  unfold CLogSystem.registerListener at h
  split at h
  · cases h
  · rename_i hfree
    obtain ⟨⟨u, seen⟩, hdispatch, heq⟩ := Option.map_eq_some_iff.mp h
    cases heq
    refine ⟨u, seen, hdispatch, ?_, rfl, ?_⟩
    · rw [List.filter_eq_nil_iff]
      intro other hother hkey
      exact hfree (List.any_eq_true.mpr ⟨other, hother, hkey⟩)
    · cases history with
      | flush => rfl
      | skip => rfl

theorem Turn.registered {u : CLogSystem} {seen : List LogSeen} (h : Turn s u seen) (l : SListener)
    (msgs : List SLogMessage) :
    Turn s { u with listeners := u.listeners ++ [l] } (seen ++ msgs.map fun msg => LogSeen.called l.key (l.shown msg)) := by
  have haccepted : ∀ log, acceptedOf log (seen ++ msgs.map fun msg => LogSeen.called l.key (l.shown msg)) =
      acceptedOf log seen := by
    intro log
    rw [acceptedOf_append, (seen_called log 0 l msgs).1, List.append_nil]
  have hof : ∀ log, dispatchedOf log (seen ++ msgs.map fun msg => LogSeen.called l.key (l.shown msg)) =
      dispatchedOf log seen := by
    intro log
    rw [dispatchedOf_append, (seen_called log 0 l msgs).2.1, List.append_nil]
  have hall : dispatched (seen ++ msgs.map fun msg => LogSeen.called l.key (l.shown msg)) = dispatched seen := by
    rw [dispatched_append, (seen_called 0 0 l msgs).2.2.1, List.append_nil]
  refine ⟨fun log c hlog => ?_, h.fresh, fun log hlog => ?_, ?_⟩
  · obtain ⟨c', hc', hpasses⟩ := h.live log c hlog
    refine ⟨c', hc', hpasses.name, ?_, ?_, ?_⟩
    · rw [haccepted, hof]
      exact hpasses.pending
    · rw [hof]
      exact hpasses.history
    · rw [haccepted]
      exact hpasses.labelled
  · rw [haccepted, hof]
    exact h.absent log hlog
  · rw [hall]
    simp only [hof]
    exact h.mixed

theorem flushTo_quiet (h : s.flushTo log key = some out) (other : Nat) :
    acceptedOf other out = [] ∧ dispatched out = [] ∧ calledOf other out = [] := by
  obtain ⟨c, hc, rfl⟩ := Option.map_eq_some_iff.mp h
  split
  · refine ⟨?_, ?_, ?_⟩
    · simp [acceptedOf]
    · simp [dispatched]
    · simp [calledOf]
  · exact ⟨rfl, rfl, rfl⟩

/-- Neither Terminate nor a channel's destruction. -/
def LogCall.stays : LogCall → Bool
  | .terminate => false
  | .destroy _ => false
  | _ => true

theorem Channels.step_turn (h : Channels hash s) {call : LogCall} (hcall : call.stays)
    (hstep : s.step hash call = some (t, out)) : Turn s t out := by
  cases call with
  | terminate => cases hcall
  | destroy log => cases hcall
  | Initialize config =>
    cases hstep
    exact Still.turn (.applyConfig hash s config) (fun log => rfl) rfl
  | construct name =>
    obtain ⟨u, hconstruct, heq⟩ := Option.map_eq_some_iff.mp hstep
    cases heq
    exact construct_turn hconstruct
  | write log level target message now => exact write_turn hstep
  | setLogLevel name level =>
    cases hstep
    exact Still.turn (.setLogLevel hash s name level) (fun log => rfl) rfl
  | setAllLogLevels level =>
    cases hstep
    exact Still.turn (.setAllLogLevels s level) (fun log => rfl) rfl
  | setEnabledTargets targets =>
    cases hstep
    exact Still.turn (.refl s) (fun log => rfl) rfl
  | registerListener l history order =>
    obtain ⟨u, seen, hdispatch, -, rfl, rfl⟩ := registerListener_spec hstep
    exact (h.dispatch_turn hdispatch).registered l _
  | unregisterListener key =>
    cases hstep
    exact Still.turn (.refl s) (fun log => rfl) rfl
  | dispatchListeners order => exact h.dispatch_turn hstep
  | listen log l =>
    obtain ⟨u, hlisten, heq⟩ := Option.map_eq_some_iff.mp hstep
    cases heq
    obtain ⟨c, hlog, hset⟩ := Option.bind_eq_some_iff.mp hlisten
    split at hset
    · cases hset
    · cases hset
      exact Still.turn (.setLog hlog rfl rfl rfl) (fun log => rfl) rfl
  | unlisten log key =>
    obtain ⟨u, hlisten, heq⟩ := Option.map_eq_some_iff.mp hstep
    cases heq
    obtain ⟨c, hlog, hset⟩ := Option.map_eq_some_iff.mp hlisten
    cases hset
    exact Still.turn (.setLog hlog rfl rfl rfl) (fun log => rfl) rfl
  | flushTo log key =>
    obtain ⟨seen, hflush, heq⟩ := Option.map_eq_some_iff.mp hstep
    cases heq
    exact Still.turn (.refl s) (fun other => (flushTo_quiet hflush other).1) (flushTo_quiet hflush 0).2.1

/-- A channel that is there afterwards was there before, or is the one constructed. -/
theorem Indexed.entry (h : Indexed hash s) {call : LogCall} (hcall : call.stays)
    (hstep : s.step hash call = some (t, out)) (hentries : ∀ log c, s.log? log = some c → (hash c.name, log) ∈ s.loggers)
    (hlog : t.log? log = some c) : (hash c.name, log) ∈ t.loggers := by
  cases hmoves : call.moves with
  | false =>
    have hkeeps := step_keeps hmoves hstep
    have hname := CLogSystem.log?_names hlog
    rw [hkeeps.names] at hname
    obtain ⟨d, hd, hsame⟩ := CLogSystem.log?_of_names hname
    rw [hkeeps.loggers, ← hsame]
    exact hentries log d hd
  | true =>
    cases call with
    | terminate => cases hcall
    | destroy log => cases hcall
    | construct name =>
      obtain ⟨u, hconstruct, heq⟩ := Option.map_eq_some_iff.mp hstep
      cases heq
      obtain ⟨-, hloggers, hnames⟩ := h.construct hconstruct
      have hname := CLogSystem.log?_names hlog
      rw [hnames, List.getElem?_append] at hname
      rw [hloggers, List.mem_append]
      split at hname
      · obtain ⟨d, hd, hsame⟩ := CLogSystem.log?_of_names hname
        rw [← hsame]
        exact .inl (hentries log d hd)
      · have hlt := (List.getElem?_eq_some_iff.mp hname).1
        simp only [List.length_singleton] at hlt
        have hat : log = s.names.length := by omega
        rw [hat, Nat.sub_self] at hname
        cases hname
        rw [hat]
        exact .inr (List.mem_singleton.mpr rfl)
    | _ => cases hmoves

theorem Channels.step (h : Channels hash s) {call : LogCall} (hcall : call.stays)
    (hstep : s.step hash call = some (t, out)) : Channels hash t := by
  have hturn := h.step_turn hcall hstep
  have hold : ∀ log c, t.log? log = some c →
      (∀ msg ∈ c.history ++ c.pendingDispatch, msg.channelName = c.name) ∧ c.history.length ≤ MaxMessages := by
    intro log c hlog
    cases hbefore : s.log? log with
    | some d =>
      obtain ⟨c', hc', hpasses⟩ := hturn.live log d hbefore
      cases hlog.symm.trans hc'
      have hle := h.bounded log d hbefore
      exact ⟨hpasses.named hle (h.labelled log d hbefore), hpasses.bounded hle⟩
    | none =>
      obtain ⟨hpending, hhistory⟩ := hturn.fresh log c hlog hbefore
      rw [hpending, hhistory]
      exact ⟨fun msg hmsg => absurd hmsg List.not_mem_nil, Nat.zero_le _⟩
  exact {
    indexed := h.indexed.step hstep
    registered := fun log c hlog => h.indexed.entry hcall hstep h.registered hlog
    labelled := fun log c hlog => (hold log c hlog).1
    bounded := fun log c hlog => (hold log c hlog).2 }

theorem Channels.start : Channels hash {} := by
  have hnone : ∀ log c, ({} : CLogSystem).log? log ≠ some c := by
    intro log c hlog
    cases CLogSystem.log?_eq_some.mp hlog
  exact {
    indexed := .empty
    registered := fun log c hlog => absurd hlog (hnone log c)
    labelled := fun log c hlog => absurd hlog (hnone log c)
    bounded := fun log c hlog => absurd hlog (hnone log c) }

end TgeCore.Logging
