import Mathlib.Data.List.Basic
import TgeCore.Library.Machine

namespace TgeCore.Logging
open Library

/-- A set of levels, one bit for each. -/
structure ELogLevel where
  bits : BitVec 8
deriving DecidableEq

namespace ELogLevel

def None : ELogLevel := ⟨0⟩

def Error : ELogLevel := ⟨1⟩

def Warning : ELogLevel := ⟨2⟩

def Info : ELogLevel := ⟨4⟩

def All : ELogLevel := ⟨7⟩

instance : AndOp ELogLevel := ⟨fun a b => ⟨a.bits &&& b.bits⟩⟩

end ELogLevel

/-- A set of places that a message goes to, one bit for each. -/
structure ETarget where
  bits : BitVec 8
deriving DecidableEq

namespace ETarget

def None : ETarget := ⟨0⟩

def Terminal : ETarget := ⟨1⟩

def File : ETarget := ⟨2⟩

def Listeners : ETarget := ⟨4⟩

def All : ETarget := ⟨7⟩

instance : AndOp ETarget := ⟨fun a b => ⟨a.bits &&& b.bits⟩⟩

end ETarget

inductive EMessageFormat where
  | formatted
  | raw
deriving DecidableEq

inductive EHistory where
  | skip
  | flush
deriving DecidableEq

structure SLogMessage where
  timestamp : Nat
  level : ELogLevel
  target : ETarget
  channelName : String
  message : String
  formattedTimestamp : String
deriving DecidableEq

def LevelToString (level : ELogLevel) : String :=
  if level = .Error then "ERROR"
  else if level = .Warning then "WARNING"
  else if level = .Info then "INFO"
  else "UNKNOWN"

def FormatMessage (msg : SLogMessage) : String :=
  "[" ++ msg.formattedTimestamp ++ "] [" ++ LevelToString msg.level ++ "] [" ++ msg.channelName ++ "] " ++ msg.message

/-- A listener, with its callback named by its key. -/
structure SListener where
  key : Nat
  format : EMessageFormat
deriving DecidableEq

/-- What a listener's callback is given for a message. -/
def SListener.shown (l : SListener) (msg : SLogMessage) : SLogMessage :=
  match l.format with
  | .formatted => { msg with message := FormatMessage msg }
  | .raw => msg

def MaxMessages : Nat := 1024

structure CLog where
  name : String
  levelMask : ELogLevel := .All
  listeners : List SListener := []
  pendingDispatch : List SLogMessage := []
  history : List SLogMessage := []
deriving DecidableEq

/-- The log system, with the registry, the system-wide listeners and every CLog ever
constructed, in their order. -/
structure CLogSystem where
  initialized : Bool := false
  enabledTargets : ETarget := .All
  loggers : List (UInt64 × Nat) := []
  listeners : List SListener := []
  logs : List (Option CLog) := []
deriving DecidableEq

/-- A configuration file's settings that are valid. -/
structure LogConfig where
  defaultLevel : Option ELogLevel := none
  channelOverrides : List (String × ELogLevel) := []
deriving DecidableEq

/-- What the clock gives a message. -/
structure Now where
  timestamp : Nat
  formattedTimestamp : String
deriving DecidableEq

/-- What can be seen of a call: a message accepted for the listeners, one moved into its
channel's history, a callback of the system or of a channel called, and SetLogLevel's result. -/
inductive LogSeen where
  | accepted (log : Nat) (msg : SLogMessage)
  | dispatched (log : Nat) (msg : SLogMessage)
  | called (key : Nat) (msg : SLogMessage)
  | channelCalled (log : Nat) (key : Nat) (msg : SLogMessage)
  | found (found : Bool)
deriving DecidableEq

namespace CLogSystem

def log? (s : CLogSystem) (log : Nat) : Option CLog := (s.logs[log]?).bind id

def setLog (s : CLogSystem) (log : Nat) (c : CLog) : CLogSystem := { s with logs := s.logs.set log (some c) }

/-- The names of the CLogs, with nothing for one that is destroyed. -/
def names (s : CLogSystem) : List (Option String) := s.logs.map (Option.map CLog.name)

section Logs
variable {s : CLogSystem} {log other : Nat} {c c' : CLog}

theorem log?_eq_some : s.log? log = some c ↔ s.logs[log]? = some (some c) := by
  unfold log?
  rw [Option.bind_eq_some_iff]
  constructor
  · rintro ⟨entry, hentry, rfl⟩
    exact hentry
  · intro hentry
    exact ⟨some c, hentry, rfl⟩

theorem log?_setLog_self (h : s.log? log = some c) (c' : CLog) : (s.setLog log c').log? log = some c' := by
  rw [log?_eq_some] at h ⊢
  exact List.getElem?_set_self (List.getElem?_eq_some_iff.mp h).1

theorem log?_setLog_of_ne (hne : log ≠ other) (c' : CLog) : (s.setLog log c').log? other = s.log? other := by
  unfold log? setLog
  rw [List.getElem?_set_ne hne]

@[simp] theorem loggers_setLog : (s.setLog log c').loggers = s.loggers := rfl

@[simp] theorem listeners_setLog : (s.setLog log c').listeners = s.listeners := rfl

theorem names_setLog (h : s.log? log = some c) (hname : c'.name = c.name) : (s.setLog log c').names = s.names := by
  unfold names setLog
  rw [List.map_set, Option.map_some, hname]
  apply List.ext_getElem?
  intro i
  rw [List.getElem?_set]
  split
  · rename_i heq
    subst heq
    have hlog := log?_eq_some.mp h
    have hlt := (List.getElem?_eq_some_iff.mp hlog).1
    rw [List.length_map, if_pos hlt, List.getElem?_map, hlog]
    rfl
  · rfl

theorem log?_names (h : s.log? log = some c) : s.names[log]? = some (some c.name) := by
  unfold names
  rw [List.getElem?_map, log?_eq_some.mp h]
  rfl

theorem log?_of_names {name : String} (h : s.names[log]? = some (some name)) :
    ∃ c, s.log? log = some c ∧ c.name = name := by
  unfold names at h
  rw [List.getElem?_map] at h
  obtain ⟨entry, hentry, hname⟩ := Option.map_eq_some_iff.mp h
  obtain ⟨c, rfl, hc⟩ := Option.map_eq_some_iff.mp hname
  exact ⟨c, log?_eq_some.mpr hentry, hc⟩

end Logs

/-- The registry's entry for an id. -/
def find (s : CLogSystem) (id : UInt64) : Option Nat := (s.loggers.find? fun entry => entry.1 = id).map Prod.snd

def setLevelMask (s : CLogSystem) (log : Nat) (level : ELogLevel) : CLogSystem :=
  match s.log? log with
  | some c => s.setLog log { c with levelMask := level }
  | none => s

def setAllLogLevels (s : CLogSystem) (level : ELogLevel) : CLogSystem :=
  s.loggers.foldl (fun s entry => s.setLevelMask entry.2 level) s

/-- The registry does not say which name an id was made of, so `hash` stands for std::hash. -/
def setLogLevel (hash : String → UInt64) (s : CLogSystem) (channelName : String) (level : ELogLevel) :
    CLogSystem × Bool :=
  match s.find (hash channelName) with
  | some log => (s.setLevelMask log level, true)
  | none => (s, false)

/-- LoadConfig, after the file is read: the default first and the channels' own levels after it. -/
def applyConfig (hash : String → UInt64) (s : CLogSystem) (config : LogConfig) : CLogSystem :=
  config.channelOverrides.foldl (fun s entry => (s.setLogLevel hash entry.1 entry.2).1)
    (match config.defaultLevel with
      | some level => s.setAllLogLevels level
      | none => s)

def Initialize (hash : String → UInt64) (s : CLogSystem) (config : LogConfig) : CLogSystem :=
  { s.applyConfig hash config with initialized := true }

def terminate (s : CLogSystem) : CLogSystem := { s with initialized := false, loggers := [] }

def IsReservedChannelName (name : String) : Bool :=
  name = "all" || name = "All" || name = "none" || name = "None" || name = "*"

/-- Register asserts that the name is not reserved and that no channel has its id. -/
def construct (hash : String → UInt64) (s : CLogSystem) (name : String) : Option CLogSystem :=
  if IsReservedChannelName name ∨ (s.find (hash name)).isSome then none
  else some { s with loggers := s.loggers ++ [(hash name, s.logs.length)], logs := s.logs ++ [some { name }] }

def destroy (hash : String → UInt64) (s : CLogSystem) (log : Nat) : Option CLogSystem :=
  (s.log? log).map fun c =>
    { s with loggers := s.loggers.filter fun entry => entry.1 ≠ hash c.name, logs := s.logs.set log none }

/-- A message written before Initialize or after Terminate goes to the terminal only. -/
def write (s : CLogSystem) (log : Nat) (level : ELogLevel) (target : ETarget) (message : String) (now : Now) :
    Option (CLogSystem × List LogSeen) :=
  (s.log? log).map fun c =>
    let effective := target &&& s.enabledTargets
    if s.initialized ∧ level &&& c.levelMask ≠ .None ∧ effective &&& .Listeners ≠ .None then
      let msg : SLogMessage :=
        { timestamp := now.timestamp, level, target := effective, channelName := c.name, message
          formattedTimestamp := now.formattedTimestamp }
      (s.setLog log { c with pendingDispatch := c.pendingDispatch ++ [msg] }, [.accepted log msg])
    else (s, [])

end CLogSystem

/-- The messages that stay when the oldest ones are popped. -/
def popFront (history : List SLogMessage) : List SLogMessage := history.drop (history.length - MaxMessages)

/-- What DispatchPending does for one message. -/
def deliver (log : Nat) (own global : List SListener) (msg : SLogMessage) : List LogSeen :=
  LogSeen.dispatched log msg :: (own.map fun l => LogSeen.channelCalled log l.key (l.shown msg)) ++
    global.map fun l => LogSeen.called l.key (l.shown msg)

namespace CLogSystem

def dispatchPending (s : CLogSystem) (log : Nat) : CLogSystem × List LogSeen :=
  match s.log? log with
  | some c =>
    (s.setLog log { c with pendingDispatch := [], history := popFront (c.history ++ c.pendingDispatch) },
      c.pendingDispatch.flatMap (deliver log c.listeners s.listeners))
  | none => (s, [])

def dispatchAll (s : CLogSystem) : List Nat → CLogSystem × List LogSeen
  | [] => (s, [])
  | log :: rest =>
    let next := s.dispatchPending log
    let last := next.1.dispatchAll rest
    (last.1, next.2 ++ last.2)

/-- The registry has no order of its own: `order` is the one it is gone through in. -/
def dispatchListeners (s : CLogSystem) (order : List Nat) : Option (CLogSystem × List LogSeen) :=
  if order.Perm (s.loggers.map Prod.snd) then some (s.dispatchAll order) else none

/-- The history that a new listener is called with. -/
def replay (s : CLogSystem) (order : List Nat) : List SLogMessage :=
  (order.flatMap fun log => ((s.log? log).map CLog.history).getD []).mergeSort
    fun a b => a.timestamp ≤ b.timestamp

/-- RegisterListener asserts that no listener has the key. -/
def registerListener (s : CLogSystem) (listener : SListener) (history : EHistory) (order : List Nat) :
    Option (CLogSystem × List LogSeen) :=
  if s.listeners.any (fun l => l.key = listener.key) then none
  else
    (s.dispatchListeners order).map fun next =>
      ({ next.1 with listeners := next.1.listeners ++ [listener] },
        next.2 ++
          match history with
          | .flush => (next.1.replay order).map fun msg => LogSeen.called listener.key (listener.shown msg)
          | .skip => [])

def unregisterListener (s : CLogSystem) (key : Nat) : CLogSystem :=
  { s with listeners := s.listeners.filter fun l => l.key ≠ key }

def listen (s : CLogSystem) (log : Nat) (listener : SListener) : Option CLogSystem :=
  (s.log? log).bind fun c =>
    if c.listeners.any (fun l => l.key = listener.key) then none
    else some (s.setLog log { c with listeners := c.listeners ++ [listener] })

def unlisten (s : CLogSystem) (log : Nat) (key : Nat) : Option CLogSystem :=
  (s.log? log).map fun c => s.setLog log { c with listeners := c.listeners.filter fun l => l.key ≠ key }

def flushTo (s : CLogSystem) (log : Nat) (key : Nat) : Option (List LogSeen) :=
  (s.log? log).map fun c =>
    match c.listeners.find? fun l => l.key = key with
    | some l => c.history.map fun msg => LogSeen.channelCalled log l.key (l.shown msg)
    | none => []

end CLogSystem

/-- A call of the log system or of one of its channels. `listen` and `unlisten` are a
channel's RegisterListener and UnregisterListener. -/
inductive LogCall where
  | Initialize (config : LogConfig)
  | terminate
  | construct (name : String)
  | destroy (log : Nat)
  | write (log : Nat) (level : ELogLevel) (target : ETarget) (message : String) (now : Now)
  | setLogLevel (channelName : String) (level : ELogLevel)
  | setAllLogLevels (level : ELogLevel)
  | setEnabledTargets (targets : ETarget)
  | registerListener (listener : SListener) (history : EHistory) (order : List Nat)
  | unregisterListener (key : Nat)
  | dispatchListeners (order : List Nat)
  | listen (log : Nat) (listener : SListener)
  | unlisten (log : Nat) (key : Nat)
  | flushTo (log : Nat) (key : Nat)
deriving DecidableEq

def CLogSystem.step (hash : String → UInt64) (s : CLogSystem) : LogCall → Option (CLogSystem × List LogSeen)
  | .Initialize config => some (s.Initialize hash config, [])
  | .terminate => some (s.terminate, [])
  | .construct name => (s.construct hash name).map fun s' => (s', [])
  | .destroy log => (s.destroy hash log).map fun s' => (s', [])
  | .write log level target message now => s.write log level target message now
  | .setLogLevel channelName level =>
    some ((s.setLogLevel hash channelName level).1, [.found (s.setLogLevel hash channelName level).2])
  | .setAllLogLevels level => some (s.setAllLogLevels level, [])
  | .setEnabledTargets targets => some ({ s with enabledTargets := targets }, [])
  | .registerListener listener history order => s.registerListener listener history order
  | .unregisterListener key => some (s.unregisterListener key, [])
  | .dispatchListeners order => s.dispatchListeners order
  | .listen log listener => (s.listen log listener).map fun s' => (s', [])
  | .unlisten log key => (s.unlisten log key).map fun s' => (s', [])
  | .flushTo log key => (s.flushTo log key).map fun out => (s, out)

/-- The log system under a sequence of calls. -/
def logSystem (hash : String → UInt64) : Machine CLogSystem LogCall (List LogSeen) := ⟨CLogSystem.step hash⟩

end TgeCore.Logging
