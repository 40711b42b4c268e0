import TgeCore.Logging.Listeners

namespace TgeCore.Testing
open Library Logging

/-- Where a line is printed. -/
inductive EStream where
  | out
  | err
deriving DecidableEq

/-- What can be seen of a test: a message that passes its channel's levels, one that a guard
counts, one that is printed, Write's own line before Initialize, and a failure of the test. -/
inductive TestSeen where
  | written (msg : SLogMessage)
  | counted (msg : SLogMessage)
  | printed (stream : EStream) (msg : SLogMessage)
  | fallback (level : ELogLevel) (message : String)
  | failure (text : String)
deriving DecidableEq

/-- The terminal leaves out the level of an Info. -/
def FormatMessageForTerminal (msg : SLogMessage) : String :=
  if msg.level = .Info then "[" ++ msg.formattedTimestamp ++ "] [" ++ msg.channelName ++ "] " ++ msg.message
  else FormatMessage msg

def WriteToTerminal (msg : SLogMessage) : List TestSeen :=
  let shown := { msg with message := FormatMessageForTerminal msg }
  if msg.level = .Info ∨ msg.level = .Warning then [.printed .out shown]
  else if msg.level = .Error then [.printed .err shown]
  else []

/-- A message with its text as a listener that wants it formatted is given it. -/
def formatted (msg : SLogMessage) : SLogMessage := { msg with message := FormatMessage msg }

/-- A guard, with `key` for its own address. -/
structure CExpectedLog where
  key : Nat
  channel : String
  numExpectedWarnings : UInt32 := 0
  numExpectedErrors : UInt32 := 0
  numWarnings : UInt32 := 0
  numErrors : UInt32 := 0
  savedTargets : ETarget := .All
  isEchoing : Bool := false
  isArmed : Bool := false
deriving DecidableEq

/-- The log system as the guards see it, with the flag that they share. -/
structure TestLog where
  system : CLogSystem
  isAnyArmed : Bool := false
deriving DecidableEq

namespace CExpectedLog

def Echo (message : SLogMessage) : List TestSeen :=
  if message.level = .Error then [.printed .err message] else [.printed .out message]

/-- A guard's callback. -/
def Count (g : CExpectedLog) (message : SLogMessage) : CExpectedLog × List TestSeen :=
  if message.channelName = g.channel ∧ message.level = .Warning then
    ({ g with numWarnings := g.numWarnings + 1 }, [.counted message])
  else if message.channelName = g.channel ∧ message.level = .Error then
    ({ g with numErrors := g.numErrors + 1 }, [.counted message])
  else if g.isEchoing then (g, Echo message)
  else (g, [])

/-- The callback called with one message after the other. -/
def hear (g : CExpectedLog) : List SLogMessage → CExpectedLog × List TestSeen
  | [] => (g, [])
  | message :: rest =>
    let next := g.Count message
    let last := next.1.hear rest
    (last.1, next.2 ++ last.2)

end CExpectedLog

/-- The target bits that a guard enables: the listeners, and the terminal no more. -/
def silenced (savedTargets : ETarget) : ETarget :=
  ⟨(savedTargets.bits ||| ETarget.Listeners.bits) &&& ~~~ETarget.Terminal.bits⟩

/-- The levels that a guard counts. -/
def countedLevels : ELogLevel := ⟨ELogLevel.Warning.bits ||| ELogLevel.Error.bits⟩

def getChannelNames (s : CLogSystem) : List String := s.loggers.filterMap fun entry => s.nameOf entry.2

def getLogLevel (hash : String → UInt64) (s : CLogSystem) (channelName : String) : ELogLevel :=
  match (s.find (hash channelName)).bind s.log? with
  | some c => c.levelMask
  | none => .All

namespace CExpectedLog

/-- The constructor. A guard that cannot count fails the test and does nothing else. -/
def construct (hash : String → UInt64) (test : TestLog) (key : Nat) (channel : String) (numWarnings numErrors : UInt32)
    (order : List Nat) : Option (TestLog × CExpectedLog × List TestSeen) :=
  let s := test.system
  let g : CExpectedLog := { key, channel, numExpectedWarnings := numWarnings, numExpectedErrors := numErrors }
  if s.initialized = false then
    some (test, g,
      [.failure "CExpectedLog needs an initialized log system: before that, no listener sees a message"])
  else if test.isAnyArmed then some (test, g, [.failure "CExpectedLog guards do not nest"])
  else if channel ∉ getChannelNames s then
    some (test, g, [.failure ("No log channel named '" ++ channel ++ "': nothing could ever be counted")])
  else if getLogLevel hash s channel &&& countedLevels ≠ countedLevels then
    some (test, g, [.failure ("Channel '" ++ channel ++ "' masks Warnings or Errors, so none would arrive")])
  else
    let savedTargets := s.enabledTargets
    (({ s with enabledTargets := silenced savedTargets } : CLogSystem).registerListener ⟨key, .formatted⟩ .skip order).map
      fun next =>
        ({ system := next.1, isAnyArmed := true },
          { g with savedTargets, isEchoing := savedTargets &&& .Terminal ≠ .None, isArmed := true }, [])

/-- EXPECT_EQ, for one of the two counts. -/
def expectEqual (channel what : String) (num numExpected : UInt32) : List TestSeen :=
  if num = numExpected then [] else [.failure (what ++ " logged on channel '" ++ channel ++ "'")]

/-- The destructor. -/
def destruct (g : CExpectedLog) (test : TestLog) (order : List Nat) : Option (TestLog × CExpectedLog × List TestSeen) :=
  if g.isArmed then
    (test.system.dispatchListeners order).map fun next =>
      let heard := g.hear (calledOf g.key next.2)
      ({ system := { next.1.unregisterListener g.key with enabledTargets := g.savedTargets } }, heard.1,
        heard.2 ++ expectEqual g.channel "Warnings" heard.1.numWarnings g.numExpectedWarnings ++
          expectEqual g.channel "Errors" heard.1.numErrors g.numExpectedErrors)
  else some (test, g, [])

end CExpectedLog

/-- What Write itself does with a message. -/
def shows (s : CLogSystem) : LogCall → List TestSeen
  | .write log level target message now =>
    match s.log? log with
    | some c =>
      if level &&& c.levelMask = .None then []
      else if s.initialized then
        let effective := target &&& s.enabledTargets
        let msg : SLogMessage :=
          { timestamp := now.timestamp, level, target := effective, channelName := c.name, message
            formattedTimestamp := now.formattedTimestamp }
        .written msg :: if effective &&& .Terminal = .None then [] else WriteToTerminal msg
      else [.fallback level message]
    | none => []
  | _ => []

/-- The scope of a guard. -/
structure Scope where
  system : CLogSystem
  guard : CExpectedLog
deriving DecidableEq

/-- What happens in a guard's scope: a call of the log system, or a turn of DispatchListeners,
which comes to one channel after the other while other threads go on writing. -/
inductive ScopeCall where
  | call (call : LogCall)
  | turn (log : Nat)
deriving DecidableEq

namespace Scope

/-- The guard hears what its listener is called with. -/
def heard (p : Scope) (system : CLogSystem) (out : List LogSeen) (shown : List TestSeen) : Scope × List TestSeen :=
  let next := p.guard.hear (calledOf p.guard.key out)
  ({ system, guard := next.1 }, shown ++ next.2)

def step (hash : String → UInt64) (p : Scope) : ScopeCall → Option (Scope × List TestSeen)
  | .call call => (p.system.step hash call).map fun next => p.heard next.1 next.2 (shows p.system call)
  | .turn log =>
    if log ∈ p.system.loggers.map Prod.snd then
      let next := p.system.dispatchPending log
      some (p.heard next.1 next.2 [])
    else none

end Scope

/-- The calls that leave a guard's scope as it is: no channel goes away, and neither the targets
nor the guard's own listener are changed. -/
def ScopeCall.calm (key : Nat) : ScopeCall → Bool
  | .call (.setEnabledTargets _) => false
  | .call other => other.stays && !other.rekeys key
  | .turn _ => true

abbrev CalmCall (key : Nat) := { call : ScopeCall // call.calm key = true }

/-- What happens in the scope of the guard with a key. -/
def scope (hash : String → UInt64) (key : Nat) : Machine Scope (CalmCall key) (List TestSeen) :=
  ⟨fun p call => p.step hash call.1⟩

/-- The messages that pass their channels' levels. -/
def writtenOf (out : List TestSeen) : List SLogMessage :=
  out.filterMap fun
    | .written msg => some msg
    | _ => none

def countedOf (out : List TestSeen) : List SLogMessage :=
  out.filterMap fun
    | .counted msg => some msg
    | _ => none

def printedOf (out : List TestSeen) : List SLogMessage :=
  out.filterMap fun
    | .printed _ msg => some msg
    | _ => none

/-- A Warning or an Error of the guarded channel. -/
def expects (channel : String) (msg : SLogMessage) : Bool :=
  msg.channelName = channel && (msg.level = .Warning || msg.level = .Error)

/-- Each message of a scope is counted, if it is one that the guard expects, or else printed, and
nothing else is. -/
structure NothingLost (channel : String) (guard : CExpectedLog) (out : List TestSeen) : Prop where
  counted : (countedOf out).Perm (((writtenOf out).filter (expects channel)).map formatted)
  printed : (printedOf out).Perm (((writtenOf out).filter fun msg => !expects channel msg).map formatted)
  warnings : guard.numWarnings =
    UInt32.ofNat (((writtenOf out).filter (expects channel)).countP fun msg => msg.level = .Warning)
  errors : guard.numErrors =
    UInt32.ofNat (((writtenOf out).filter (expects channel)).countP fun msg => msg.level = .Error)

/-- A message that passes its channel's levels goes to the listeners, from a channel that they
are reached from. -/
def Scope.Heard (p : Scope) : ScopeCall → Prop
  | .call (.write log level target _ _) => ∀ c ∈ p.system.log? log, level &&& c.levelMask ≠ .None →
      target &&& .Listeners ≠ .None ∧ log ∈ p.system.loggers.map Prod.snd
  | _ => True

instance (p : Scope) : ∀ call, Decidable (p.Heard call)
  | .call (.write log level target _ _) =>
    inferInstanceAs (Decidable (∀ c ∈ p.system.log? log, level &&& c.levelMask ≠ .None →
      target &&& .Listeners ≠ .None ∧ log ∈ p.system.loggers.map Prod.snd))
  | .call (.Initialize _) | .call .terminate | .call (.construct _) | .call (.destroy _) | .call (.setLogLevel _ _)
  | .call (.setAllLogLevels _) | .call (.setEnabledTargets _) | .call (.registerListener _ _ _)
  | .call (.unregisterListener _) | .call (.dispatchListeners _) | .call (.listen _ _) | .call (.unlisten _ _)
  | .call (.flushTo _ _) | .turn _ => isTrue trivial

end TgeCore.Testing
