import Mathlib.Logic.Function.Basic
import TgeCore.Logging.LogSystem

namespace TgeCore.Logging
open Library

/-- A call of the log system or of one of its channels, as a thread makes it: the order of the
registry is not the thread's to say. -/
inductive LogRequest where
  | Initialize (config : LogConfig)
  | terminate
  | construct (name : String)
  | destroy (log : Nat)
  | write (log : Nat) (level : ELogLevel) (target : ETarget) (message : String) (now : Now)
  | setLogLevel (channelName : String) (level : ELogLevel)
  | setAllLogLevels (level : ELogLevel)
  | getLogLevel (channelName : String)
  | getChannelNames
  | getChannelNameById (channelId : UInt64)
  | setEnabledTargets (targets : ETarget)
  | registerListener (listener : SListener) (history : EHistory)
  | unregisterListener (key : Nat)
  | dispatchListeners
  | listen (log : Nat) (listener : SListener)
  | unlisten (log : Nat) (key : Nat)
  | flushTo (log : Nat) (key : Nat)
deriving DecidableEq

/-- What stands between a lock of the log mutex and its unlock. -/
inductive LogBody where
  /-- The whole of a function that calls no listener. -/
  | whole (call : LogCall)
  /-- GetLogLevel, GetChannelNames or GetChannelNameById. -/
  | look
  | register (name : String)
  | emplace (name : String)
  | write (log : Nat) (level : ELogLevel) (target : ETarget) (message : String) (now : Now)
  /-- The first half of DispatchListeners. -/
  | collect
  | dispatchPending (log : Nat)
  | registerListener (listener : SListener) (history : EHistory)
  | flushTo (log : Nat) (key : Nat)
deriving DecidableEq

/-- What a thread still has to do. A callback is named by what is seen of it. -/
inductive LogInstr where
  | call (request : LogRequest)
  | locked (body : LogBody)
  | unlock
  | callback (seen : LogSeen)
deriving DecidableEq

def LogSeen.isCallback : LogSeen → Bool
  | .called _ _ => true
  | .channelCalled _ _ _ => true
  | _ => false

/-- The calls of listeners among what is seen. -/
def callbacks (out : List LogSeen) : List LogInstr := (out.filter LogSeen.isCallback).map LogInstr.callback

/-- Of each function, the parts that lock the mutex. Register's is the one before the constructor's own, and
Write looks at whether the system is up before it locks anything. -/
def LogRequest.parts (initialized : Bool) : LogRequest → List LogInstr
  | .Initialize config => [.locked (.whole (.Initialize config))]
  | .terminate => [.locked (.whole .terminate)]
  | .construct name => [.locked (.register name), .locked (.emplace name)]
  | .destroy log => [.locked (.whole (.destroy log))]
  | .write log level target message now => if initialized then [.locked (.write log level target message now)] else []
  | .setLogLevel channelName level => [.locked (.whole (.setLogLevel channelName level))]
  | .setAllLogLevels level => [.locked (.whole (.setAllLogLevels level))]
  | .getLogLevel _ => [.locked .look]
  | .getChannelNames => [.locked .look]
  | .getChannelNameById _ => [.locked .look]
  | .setEnabledTargets _ => []
  | .registerListener listener history => [.locked .collect, .locked (.registerListener listener history)]
  | .unregisterListener key => [.locked (.whole (.unregisterListener key))]
  | .dispatchListeners => [.locked .collect]
  | .listen log listener => [.locked (.whole (.listen log listener))]
  | .unlisten log key => [.locked (.whole (.unlisten log key))]
  | .flushTo log key => [.locked (.flushTo log key)]

/-- What a function does under the lock, and what is left to do before and after the unlock. -/
structure LogTurn where
  system : CLogSystem
  inside : List LogInstr := []
  after : List LogInstr := []
deriving DecidableEq

namespace CLogSystem

/-- The registry's emplace does nothing where the id is taken. -/
def emplace (hash : String → UInt64) (s : CLogSystem) (name : String) : CLogSystem :=
  { s with
    loggers := if (s.find (hash name)).isSome then s.loggers else s.loggers ++ [(hash name, s.logs.length)]
    logs := s.logs ++ [some { name }] }

/-- A body under the lock, with the registry gone through in `order`. An assertion that fails
ends the program, and a channel must be there to be used. -/
def locked (hash : String → UInt64) (s : CLogSystem) (order : List Nat) : LogBody → Option LogTurn
  | .whole call => (s.step hash call).map fun next => { system := next.1 }
  | .look => some { system := s }
  | .register name =>
    if IsReservedChannelName name ∨ (s.find (hash name)).isSome then none else some { system := s }
  | .emplace name => some { system := s.emplace hash name }
  | .write log level target message now =>
    -- past its check of m_initialized, Write no longer asks
    (({ s with initialized := true } : CLogSystem).write log level target message now).map fun next =>
      { system := { next.1 with initialized := s.initialized } }
  | .collect =>
    if order.Perm (s.loggers.map Prod.snd) then
      some { system := s, after := order.map fun log => .locked (.dispatchPending log) }
    else none
  | .dispatchPending log =>
    (s.log? log).map fun _ =>
      let next := s.dispatchPending log
      { system := next.1, after := callbacks next.2 }
  | .registerListener listener history =>
    if s.listeners.any (fun l => l.key = listener.key) ∨ ¬ order.Perm (s.loggers.map Prod.snd) then none
    else
      some
        { system := { s with listeners := s.listeners ++ [listener] }
          after :=
            match history with
            | .flush => callbacks ((s.replay order).map fun msg => .called listener.key (listener.shown msg))
            | .skip => [] }
  | .flushTo log key => (s.flushTo log key).map fun out => { system := s, inside := callbacks out }

end CLogSystem

/-- The log system used by threads, with the thread that holds the mutex and what each thread
has yet to do. -/
structure LogThreads (T : Type) where
  system : CLogSystem := {}
  owner : Option T := none
  instrs : T → List LogInstr

/-- Which thread goes on, in what order it finds the registry, and what a callback does that it
calls. -/
structure LogChoice (T : Type) where
  thread : T
  order : List Nat := []
  calls : List LogRequest := []

section Threads
variable {T : Type} [DecidableEq T]

namespace LogThreads

/-- A thread that has not begun. -/
def start (system : CLogSystem) (programs : T → List LogRequest) : LogThreads T :=
  { system, instrs := fun thread => (programs thread).map LogInstr.call }

def next (s : LogThreads T) (thread : T) (system : CLogSystem) (owner : Option T) (instrs : List LogInstr) :
    LogThreads T :=
  { system, owner, instrs := Function.update s.instrs thread instrs }

/-- The only call with an effect before it locks the mutex. -/
def store (s : CLogSystem) : LogRequest → CLogSystem
  | .setEnabledTargets targets => { s with enabledTargets := targets }
  | _ => s

def step (hash : String → UInt64) (s : LogThreads T) (choice : LogChoice T) : Option (LogThreads T × Unit) :=
  match s.instrs choice.thread with
  | [] => none
  | .call request :: rest =>
    some (s.next choice.thread (store s.system request) s.owner (request.parts s.system.initialized ++ rest), ())
  | .locked body :: rest =>
    if s.owner = none then
      (s.system.locked hash choice.order body).map fun turn =>
        (s.next choice.thread turn.system (some choice.thread) (turn.inside ++ .unlock :: turn.after ++ rest), ())
    else none
  | .unlock :: rest => some (s.next choice.thread s.system none rest, ())
  | .callback _ :: rest => some (s.next choice.thread s.system s.owner (choice.calls.map LogInstr.call ++ rest), ())

/-- No callback is called, and no lock taken, by the thread that holds the mutex. -/
structure Disciplined (s : LogThreads T) : Prop where
  callback : ∀ thread seen rest, s.instrs thread = .callback seen :: rest → s.owner ≠ some thread
  lock : ∀ thread body rest, s.instrs thread = .locked body :: rest → s.owner ≠ some thread

/-- The channel and the key of a FlushTo that locks the mutex next. -/
def flushing : List LogInstr → Option (Nat × Nat)
  | .locked (.flushTo log key) :: _ => some (log, key)
  | _ => none

/-- FlushTo finds no listener with the key, or has nothing to give it. -/
def Unflushed (s : LogThreads T) (choice : LogChoice T) : Prop :=
  ∀ target ∈ flushing (s.instrs choice.thread), ∀ c ∈ s.system.log? target.1,
    (∀ l ∈ c.listeners, l.key ≠ target.2) ∨ c.history = []

instance (s : LogThreads T) (choice : LogChoice T) : Decidable (s.Unflushed choice) :=
  inferInstanceAs (Decidable (∀ target ∈ flushing (s.instrs choice.thread), ∀ c ∈ s.system.log? target.1,
    (∀ l ∈ c.listeners, l.key ≠ target.2) ∨ c.history = []))

end LogThreads

def logThreads (T : Type) [DecidableEq T] (hash : String → UInt64) : Machine (LogThreads T) (LogChoice T) Unit :=
  ⟨LogThreads.step hash⟩

/-- Where the mutex is held its holder is on the way to the unlock, and nobody else is. -/
structure LogThreads.Guarded (s : LogThreads T) : Prop where
  holder : ∀ thread, s.owner = some thread → ∃ rest, s.instrs thread = .unlock :: rest ∧ .unlock ∉ rest
  others : ∀ thread, s.owner ≠ some thread → .unlock ∉ s.instrs thread

variable {hash : String → UInt64}

theorem callbacks_not_unlock (out : List LogSeen) : .unlock ∉ callbacks out := by
  intro h
  obtain ⟨seen, -, heq⟩ := List.mem_map.mp h
  cases heq

theorem LogRequest.parts_not_unlock (initialized : Bool) (request : LogRequest) :
    .unlock ∉ request.parts initialized := by
  intro h
  cases request with
  | write log level target message now =>
    cases initialized with
    | true => simp [parts] at h
    | false => cases h
  | _ => simp [parts] at h

namespace CLogSystem
variable {s : CLogSystem} {order : List Nat} {turn : LogTurn} {log key : Nat}

theorem locked_after {body : LogBody} (h : s.locked hash order body = some turn) : .unlock ∉ turn.after := by
  cases body with
  | whole call =>
    obtain ⟨next, -, rfl⟩ := Option.map_eq_some_iff.mp h
    exact List.not_mem_nil
  | look =>
    cases h
    exact List.not_mem_nil
  | register name =>
    simp only [locked] at h
    split at h
    · cases h
    · cases h
      exact List.not_mem_nil
  | emplace name =>
    cases h
    exact List.not_mem_nil
  | write log level target message now =>
    obtain ⟨next, -, rfl⟩ := Option.map_eq_some_iff.mp h
    exact List.not_mem_nil
  | collect =>
    simp only [locked] at h
    split at h
    · cases h
      intro hmem
      obtain ⟨log, -, heq⟩ := List.mem_map.mp hmem
      cases heq
    · cases h
  | dispatchPending log =>
    obtain ⟨c, -, rfl⟩ := Option.map_eq_some_iff.mp h
    exact callbacks_not_unlock _
  | registerListener listener history =>
    simp only [locked] at h
    split at h
    · cases h
    · cases h
      cases history with
      | flush => exact callbacks_not_unlock _
      | skip => exact List.not_mem_nil
  | flushTo log key =>
    obtain ⟨out, -, rfl⟩ := Option.map_eq_some_iff.mp h
    exact List.not_mem_nil

/-- Only FlushTo has anything to call before the unlock. -/
theorem locked_inside {body : LogBody} (h : s.locked hash order body = some turn)
    (hbody : ∀ log key, body ≠ .flushTo log key) : turn.inside = [] := by
  cases body with
  | whole call =>
    obtain ⟨next, -, rfl⟩ := Option.map_eq_some_iff.mp h
    rfl
  | look =>
    cases h
    rfl
  | register name =>
    simp only [locked] at h
    split at h
    · cases h
    · cases h
      rfl
  | emplace name =>
    cases h
    rfl
  | write log level target message now =>
    obtain ⟨next, -, rfl⟩ := Option.map_eq_some_iff.mp h
    rfl
  | collect =>
    simp only [locked] at h
    split at h
    · cases h
      rfl
    · cases h
  | dispatchPending log =>
    obtain ⟨c, -, rfl⟩ := Option.map_eq_some_iff.mp h
    rfl
  | registerListener listener history =>
    simp only [locked] at h
    split at h
    · cases h
    · cases h
      rfl
  | flushTo log key => exact absurd rfl (hbody log key)

theorem locked_flushTo (h : s.locked hash order (.flushTo log key) = some turn) :
    ∃ c, s.log? log = some c ∧
      (((∀ l ∈ c.listeners, l.key ≠ key) ∨ c.history = []) ∧ turn.inside = [] ∨
        ¬ ((∀ l ∈ c.listeners, l.key ≠ key) ∨ c.history = []) ∧
          ∃ seen rest, turn.inside = .callback seen :: rest) := by
  obtain ⟨out, hflush, rfl⟩ := Option.map_eq_some_iff.mp h
  obtain ⟨c, hc, rfl⟩ := Option.map_eq_some_iff.mp hflush
  refine ⟨c, hc, ?_⟩
  cases hfind : c.listeners.find? fun l => l.key = key with
  | none =>
    have habsent : ∀ l ∈ c.listeners, l.key ≠ key := by simpa using hfind
    exact .inl ⟨.inl habsent, rfl⟩
  | some l =>
    have hkey : l.key = key := by simpa using List.find?_some hfind
    have hmem := List.mem_of_find?_eq_some hfind
    cases hhistory : c.history with
    | nil => exact .inl ⟨.inr rfl, rfl⟩
    | cons msg rest =>
      refine .inr ⟨?_, _, _, rfl⟩
      rintro (habsent | hnil)
      · exact habsent l hmem hkey
      · cases hnil

end CLogSystem

namespace LogThreads
variable {s t : LogThreads T} {choice : LogChoice T} {u : Unit}

omit [DecidableEq T] in
theorem Guarded.disciplined (h : s.Guarded) : s.Disciplined := by
  constructor
  · intro thread seen rest hhead howner
    obtain ⟨later, hunlock, -⟩ := h.holder thread howner
    rw [hhead] at hunlock
    cases hunlock
  · intro thread body rest hhead howner
    obtain ⟨later, hunlock, -⟩ := h.holder thread howner
    rw [hhead] at hunlock
    cases hunlock

omit [DecidableEq T] in
theorem Guarded.start (system : CLogSystem) (programs : T → List LogRequest) : (LogThreads.start system programs).Guarded := by
  refine ⟨fun thread howner => (by cases howner), fun thread _ hmem => ?_⟩
  obtain ⟨request, -, heq⟩ := List.mem_map.mp hmem
  cases heq

/-- A thread goes on without the mutex, locks it or unlocks it, and the others stay where they are. -/
theorem Guarded.next (h : s.Guarded) {thread : T} {system : CLogSystem} {owner : Option T} {instrs : List LogInstr}
    (hturn : owner = s.owner ∧ s.owner ≠ some thread ∧ .unlock ∉ instrs ∨
      s.owner = none ∧ owner = some thread ∧ (∃ rest, instrs = .unlock :: rest ∧ .unlock ∉ rest) ∨
      s.owner = some thread ∧ owner = none ∧ .unlock ∉ instrs) : (s.next thread system owner instrs).Guarded := by
  have hself : (s.next thread system owner instrs).instrs thread = instrs := Function.update_self ..
  have hother : ∀ other, other ≠ thread → (s.next thread system owner instrs).instrs other = s.instrs other :=
    fun other hne => Function.update_of_ne hne ..
  rcases hturn with ⟨rfl, hfree, hnone⟩ | ⟨hfree, rfl, hlocked⟩ | ⟨hheld, rfl, hnone⟩
  · refine ⟨fun other howner => ?_, fun other howner => ?_⟩
    · have hne : other ≠ thread := by
        rintro rfl
        exact hfree howner
      rw [hother other hne]
      exact h.holder other howner
    · by_cases hother' : other = thread
      · rw [hother', hself]
        exact hnone
      · rw [hother other hother']
        exact h.others other howner
  · refine ⟨fun other howner => ?_, fun other howner => ?_⟩
    · obtain rfl : thread = other := Option.some.inj howner
      rw [hself]
      exact hlocked
    · have hne : other ≠ thread := by
        rintro rfl
        exact howner rfl
      rw [hother other hne]
      apply h.others other
      rw [hfree]
      exact Option.some_ne_none other |>.symm
  · refine ⟨fun other howner => (by cases howner), fun other howner => ?_⟩
    by_cases hother' : other = thread
    · rw [hother', hself]
      exact hnone
    · rw [hother other hother']
      apply h.others other
      rw [hheld]
      intro heq
      exact hother' (Option.some.inj heq).symm

omit [DecidableEq T] in
/-- A thread that is elsewhere than at an unlock does not hold the mutex. -/
theorem Guarded.free (h : s.Guarded) {thread : T} {i : LogInstr} {rest : List LogInstr}
    (hinstrs : s.instrs thread = i :: rest) (hi : i ≠ .unlock) : s.owner ≠ some thread ∧ .unlock ∉ rest := by
  have hfree : s.owner ≠ some thread := by
    intro howner
    obtain ⟨later, hunlock, -⟩ := h.holder thread howner
    rw [hinstrs] at hunlock
    exact hi (List.cons.inj hunlock).1
  have hnone := h.others thread hfree
  rw [hinstrs] at hnone
  exact ⟨hfree, fun hmem => hnone (List.mem_cons_of_mem i hmem)⟩

omit [DecidableEq T] in
/-- Nothing is called before the unlock if it is not for a FlushTo. -/
theorem Unflushed.inside (hunflushed : s.Unflushed choice) {body : LogBody} {rest : List LogInstr} {turn : LogTurn}
    (hinstrs : s.instrs choice.thread = .locked body :: rest)
    (hturn : s.system.locked hash choice.order body = some turn) : turn.inside = [] := by
  by_cases hbody : ∃ log key, body = .flushTo log key
  · obtain ⟨log, key, rfl⟩ := hbody
    obtain ⟨c, hc, ⟨-, hnone⟩ | ⟨hflushed, -⟩⟩ := CLogSystem.locked_flushTo hturn
    · exact hnone
    · unfold Unflushed at hunflushed
      rw [hinstrs] at hunflushed
      exact absurd (hunflushed (log, key) rfl c hc) hflushed
  · apply CLogSystem.locked_inside hturn
    intro log key heq
    exact hbody ⟨log, key, heq⟩

theorem Guarded.step (h : s.Guarded) (hunflushed : s.Unflushed choice) (hstep : s.step hash choice = some (t, u)) :
    t.Guarded := by
  cases hinstrs : s.instrs choice.thread with
  | nil =>
    simp only [LogThreads.step, hinstrs] at hstep
    cases hstep
  | cons i rest =>
    cases i with
    | call request =>
      simp only [LogThreads.step, hinstrs] at hstep
      cases hstep
      obtain ⟨hfree, hrest⟩ := h.free hinstrs (fun heq => by cases heq)
      refine h.next (.inl ⟨rfl, hfree, fun hmem => ?_⟩)
      exact (List.mem_append.mp hmem).elim (request.parts_not_unlock _) hrest
    | locked body =>
      simp only [LogThreads.step, hinstrs] at hstep
      split at hstep
      · rename_i hfree
        obtain ⟨turn, hturn, heq⟩ := Option.map_eq_some_iff.mp hstep
        cases heq
        obtain ⟨-, hrest⟩ := h.free hinstrs (fun heq => by cases heq)
        rw [hunflushed.inside hinstrs hturn]
        refine h.next (.inr (.inl ⟨hfree, rfl, turn.after ++ rest, rfl, fun hmem => ?_⟩))
        exact (List.mem_append.mp hmem).elim (CLogSystem.locked_after hturn) hrest
      · cases hstep
    | unlock =>
      simp only [LogThreads.step, hinstrs] at hstep
      cases hstep
      have hheld : s.owner = some choice.thread := by
        by_contra hfree
        apply h.others choice.thread hfree
        rw [hinstrs]
        exact List.mem_cons_self
      obtain ⟨later, hunlock, hnone⟩ := h.holder choice.thread hheld
      rw [hinstrs] at hunlock
      cases hunlock
      exact h.next (.inr (.inr ⟨hheld, rfl, hnone⟩))
    | callback seen =>
      simp only [LogThreads.step, hinstrs] at hstep
      cases hstep
      obtain ⟨hfree, hrest⟩ := h.free hinstrs (fun heq => by cases heq)
      refine h.next (.inl ⟨rfl, hfree, fun hmem => ?_⟩)
      cases List.mem_append.mp hmem with
      | inl hcall =>
        obtain ⟨request, -, heq⟩ := List.mem_map.mp hcall
        cases heq
      | inr hlater => exact hrest hlater

omit [DecidableEq T] in
theorem flushing_eq_some {instrs : List LogInstr} {target : Nat × Nat} (h : flushing instrs = some target) :
    ∃ rest, instrs = .locked (.flushTo target.1 target.2) :: rest := by
  unfold flushing at h
  split at h
  · rename_i log key rest
    cases h
    exact ⟨rest, rfl⟩
  · cases h

/-- A FlushTo with something to give calls its listener before the unlock. -/
theorem Disciplined.unflushed (h : t.Disciplined) (hstep : s.step hash choice = some (t, u)) : s.Unflushed choice := by
  intro target htarget c hc
  obtain ⟨rest, hinstrs⟩ := flushing_eq_some htarget
  simp only [LogThreads.step, hinstrs] at hstep
  split at hstep
  · obtain ⟨turn, hturn, heq⟩ := Option.map_eq_some_iff.mp hstep
    cases heq
    obtain ⟨c', hc', ⟨hquiet, -⟩ | ⟨-, seen, later, hinside⟩⟩ := CLogSystem.locked_flushTo hturn
    · obtain rfl : c = c' := Option.some.inj (hc.symm.trans hc')
      exact hquiet
    · exfalso
      apply h.callback choice.thread seen (later ++ .unlock :: turn.after ++ rest)
      · rw [hinside]
        exact Function.update_self ..
      · rfl
  · cases hstep

end LogThreads

/-- A listener is only ever called, and the mutex only ever locked, by a thread that does not
hold the mutex, exactly as long as no FlushTo has anything to give. -/
theorem callbacks_unlocked_iff (hash : String → UInt64) (system : CLogSystem) (programs : T → List LogRequest)
    {choices : List (LogChoice T)} {t : LogThreads T} {out : List Unit}
    (hrun : (logThreads T hash).run (.start system programs) choices = some (t, out)) :
    (LogThreads.start system programs).Disciplined ∧
      ((logThreads T hash).Along (fun s choice => ∀ next ∈ (logThreads T hash).step s choice, next.1.Disciplined)
          (.start system programs) choices ↔
        (logThreads T hash).Along LogThreads.Unflushed (.start system programs) choices) := by
  refine ⟨(LogThreads.Guarded.start system programs).disciplined, ?_⟩
  refine Machine.Along.congr LogThreads.Guarded (fun s choice s' u hs hstep => ?_) (.start system programs) hrun
  refine ⟨⟨fun hnext => ?_, fun hunflushed next hnext => ?_⟩, fun hunflushed => hs.step hunflushed hstep⟩
  · exact (hnext _ hstep).unflushed hstep
  · obtain rfl : (s', u) = next := Option.some.inj (hstep.symm.trans hnext)
    exact (hs.step hunflushed hstep).disciplined

end Threads

/-- A channel with a listener, and a message for it. -/
def netProgram : List LogRequest :=
  [.Initialize {}, .construct "Net", .listen 0 ⟨7, .raw⟩, .write 0 .Warning .All "Timeout" ⟨5, "05"⟩, .dispatchListeners]

/-- What a listener of it does: it writes, and it unregisters itself. -/
def netCallback : List LogRequest := [.write 0 .Info .All "Seen" ⟨6, "06"⟩, .unlisten 0 7]

/-- A dispatch lets its listener do that. -/
theorem callbacks_unlocked_dispatch :
    ∃ t out, (logThreads Unit fun _ => 3).run (.start {} fun _ => netProgram) (List.replicate 26 ⟨(), [0], netCallback⟩) =
        some (t, out) ∧ t.instrs () = [] ∧
      (logThreads Unit fun _ => 3).Along
        (fun s choice => ∀ next ∈ (logThreads Unit fun _ => 3).step s choice, next.1.Disciplined)
        (.start {} fun _ => netProgram) (List.replicate 26 ⟨(), [0], netCallback⟩) := by
  refine ⟨_, _, rfl, rfl, ?_⟩
  exact (callbacks_unlocked_iff (fun _ => 3) {} (fun _ => netProgram) rfl).2.mpr (by decide)

/-- FlushTo calls the same listener with the mutex held, and its message waits for the mutex
that its own thread holds. -/
theorem flushTo_callback_locked :
    ∃ t out, (logThreads Unit fun _ => 3).run (.start {} fun _ => netProgram ++ [LogRequest.flushTo 0 7])
        (List.replicate 22 ⟨(), [0], []⟩) = some (t, out) ∧ t.owner = some () ∧
      ∃ seen rest, t.instrs () = .callback seen :: rest ∧
      ∃ t' out', (logThreads Unit fun _ => 3).run t [⟨(), [0], netCallback⟩, ⟨(), [0], []⟩] = some (t', out') ∧
        t'.owner = some () ∧ ∃ rest', t'.instrs () = .locked (.write 0 .Info .All "Seen" ⟨6, "06"⟩) :: rest' :=
  ⟨_, _, rfl, rfl, _, _, rfl, _, _, rfl, rfl, _, rfl⟩

end TgeCore.Logging
