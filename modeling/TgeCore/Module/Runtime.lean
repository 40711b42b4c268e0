import TgeCore.Module.Graph
import Mathlib.Data.Rat.Defs

namespace TgeCore.Module

inductive EFramePhase where
  | frameStart
  | pace
  | input
  | simulate
  | render
  | postRender
deriving DecidableEq, Repr

/-- The phases in execution order, which is the order of their indices. -/
def framePhases : List EFramePhase :=
  [.frameStart, .pace, .input, .simulate, .render, .postRender]

theorem mem_framePhases (phase : EFramePhase) : phase ∈ framePhases := by
  cases phase <;> simp [framePhases]

def getFramePhaseName : EFramePhase → String
  | .frameStart => "FrameStart"
  | .pace => "Pace"
  | .input => "Input"
  | .simulate => "Simulate"
  | .render => "Render"
  | .postRender => "PostRender"

structure SScheduleEntry (Mod : Type) where
  phase : EFramePhase := .frameStart
  pModule : Mod
deriving DecidableEq, Repr

structure SRunContext (Mod : Type) where
  modules : List Mod
  schedule : List (SScheduleEntry Mod)
  noTick : List Mod
  logsDir : String := "logs"
  configDir : String := "configs"
  numWorkerThreads : UInt64 := 0xFFFFFFFFFFFFFFFF

/-- CRuntime's members. `order` is the order its module graph holds. -/
structure CRuntime (Mod : Type) where
  modules : List Mod := []
  activeModules : List Mod := []
  order : List Mod := []
  schedule : EFramePhase → List Mod := fun _ => []
  noTick : List Mod := []
  running : Bool := true
  initialized : Bool := false

/-- Everything the runtime does outside its own members, in the order it does it.
Log lines that print a measured duration are left out. -/
inductive Event (Id Mod : Type) where
  | initializeLogging (logPrefix logsDir configDir : String)
  | terminateLogging
  | setNumWorkerThreads (numWorkerThreads : UInt64)
  | log (line : LogLine)
  | initializeModule (pModule : Mod) (succeeded : Bool)
  | terminate (pModule : Mod)
  | onDependencyInitialized (pDependent : Mod) (pDependency : Id)
  | onDependencyTerminating (pDependent : Mod) (pDependency : Id)
  | update (phase : EFramePhase) (pModule : Mod) (deltaTime : Rat)
deriving DecidableEq

/-- The exact value of the float 0.1f. -/
def maxFrameDelta : Rat := 13421773 / 134217728

variable {Id Mod : Type} [DecidableEq Id] [DecidableEq Mod] (I : Interface Id Mod)

def declares (pDependent pModule : Mod) : Bool :=
  (I.getDependencies pDependent).any (fun d => decide (d.pModule = some (I.getId pModule)))

def CRuntime.registerModule (rt : CRuntime Mod) (pModule : Mod) : CRuntime Mod :=
  if pModule ∈ rt.modules then rt else { rt with modules := rt.modules ++ [pModule] }

def CRuntime.registerUpdate (rt : CRuntime Mod) (phase : EFramePhase) (pModule : Mod) :
    CRuntime Mod × List (Event Id Mod) :=
  if pModule ∈ rt.modules then
    ({ rt with schedule := Function.update rt.schedule phase (rt.schedule phase ++ [pModule]) }, [])
  else (rt, [.log ⟨.error, "Module '" ++ I.moduleName pModule ++ "' is scheduled in phase " ++
    getFramePhaseName phase ++ " but was never registered - it will never tick"⟩])

def CRuntime.declareNoTick (rt : CRuntime Mod) (pModule : Mod) : CRuntime Mod :=
  { rt with noTick := rt.noTick ++ [pModule] }

/-- ValidateSchedule only logs: it has no verdict to hand on. -/
def CRuntime.validateSchedule (rt : CRuntime Mod) : List (Event Id Mod) :=
  rt.modules.filterMap (fun pModule =>
    if pModule ∈ rt.noTick ∨ ∃ phase ∈ framePhases, pModule ∈ rt.schedule phase then none
    else some (.log ⟨.error, "Module '" ++ I.moduleName pModule ++
      "' is registered but never ticks - add a RegisterUpdate for it, or " ++
      "DeclareNoTick if that is intended"⟩))

def CRuntime.logFrameSchedule (rt : CRuntime Mod) : Event Id Mod :=
  .log ⟨.info, "Frame schedule: " ++ String.join (framePhases.map (fun phase =>
    getFramePhaseName phase ++ "[" ++
      String.join ((rt.schedule phase).map (fun pModule => I.moduleName pModule ++ " ")) ++ "] "))⟩

def CRuntime.logModuleVersions (rt : CRuntime Mod) : Event Id Mod :=
  .log ⟨.info, "Module versions: " ++ String.join (rt.modules.map (fun pModule =>
    I.moduleName pModule ++ " " ++ (I.getVersion (I.getId pModule)).format ++ " "))⟩

/-- Every kind notifies. -/
def notifyDependentsInitialized (modules : List Mod) (pModule : Mod) : List (Event Id Mod) :=
  (modules.filter (fun pDependent => declares I pDependent pModule)).map
    (fun pDependent => .onDependencyInitialized pDependent (I.getId pModule))

def terminateModule (pModule : Mod) : List (Event Id Mod) :=
  [.log ⟨.info, "Terminating " ++ I.moduleName pModule ++ "..."⟩, .terminate pModule]

/-- The initialization loop over what is left of the order. It stops at the
first module whose Initialize fails. -/
def initializeLoop (modules : List Mod) (succeeds : Mod → Bool) :
    List Mod → List Mod → Bool × List Mod × List (Event Id Mod)
  | [], active => (true, active, [])
  | pModule :: rest, active =>
    let starting : Event Id Mod := .log ⟨.info, "Initializing " ++ I.moduleName pModule ++ "..."⟩
    if succeeds pModule then
      let next := initializeLoop modules succeeds rest (active ++ [pModule])
      (next.1, next.2.1, [starting, .initializeModule pModule true] ++
        notifyDependentsInitialized I modules pModule ++ next.2.2)
    else
      (false, active, [starting, .initializeModule pModule false,
        .log ⟨.error, I.moduleName pModule ++ " failed to initialize"⟩] ++
        terminateModule I pModule)

/-- `succeeds` says which modules' Initialize return true in this boot. -/
def CRuntime.initializeModules (rt : CRuntime Mod) (succeeds : Mod → Bool) :
    Bool × CRuntime Mod × List (Event Id Mod) :=
  let resolution := resolve I rt.modules
  let events := resolution.log.map Event.log
  if resolution.resolved then
    let booted := initializeLoop I rt.modules succeeds resolution.order rt.activeModules
    (booted.1, { rt with order := resolution.order, activeModules := booted.2.1 },
      events ++ booted.2.2)
  else (false, { rt with order := resolution.order }, events)

/-- The three registration loops of Initialize. -/
def CRuntime.register (rt : CRuntime Mod) (context : SRunContext Mod) :
    CRuntime Mod × List (Event Id Mod) :=
  let rt := context.modules.foldl CRuntime.registerModule rt
  let scheduled := context.schedule.foldl (fun state entry =>
    let next := state.1.registerUpdate I entry.phase entry.pModule
    (next.1, state.2 ++ next.2)) (rt, [])
  (context.noTick.foldl CRuntime.declareNoTick scheduled.1, scheduled.2)

/-- CRuntime::Initialize: its verdict, the runtime it leaves, what it did. -/
def CRuntime.initializeWith (rt : CRuntime Mod) (context : SRunContext Mod) (succeeds : Mod → Bool) :
    Bool × CRuntime Mod × List (Event Id Mod) :=
  let registered := rt.register I context
  let booted := registered.1.initializeModules I succeeds
  (booted.1, { booted.2.1 with initialized := booted.1 },
    [.initializeLogging "tge" context.logsDir context.configDir] ++ registered.2 ++
    registered.1.validateSchedule I ++
    [registered.1.logFrameSchedule I, registered.1.logModuleVersions I,
      .setNumWorkerThreads context.numWorkerThreads] ++ booted.2.2 ++
    if booted.1 then [] else [.log ⟨.error, "Failed to initialize modules"⟩])

/-- The teardown loop, given the active modules last activated first. -/
def terminateLoop : List Mod → List (Event Id Mod)
  | [] => []
  | pModule :: earlier =>
    (((pModule :: earlier).reverse.filter (fun pDependent =>
        pDependent ≠ pModule && declares I pDependent pModule)).map
      (fun pDependent => Event.onDependencyTerminating pDependent (I.getId pModule))) ++
    terminateModule I pModule ++ terminateLoop earlier

/-- TerminateModules empties the active and the registered modules, and nothing else. -/
def CRuntime.terminateModules (rt : CRuntime Mod) : CRuntime Mod × List (Event Id Mod) :=
  ({ rt with activeModules := [], modules := [] }, terminateLoop I rt.activeModules.reverse)

def CRuntime.terminate (rt : CRuntime Mod) : CRuntime Mod × List (Event Id Mod) :=
  let stopped := { rt with initialized := false }.terminateModules I
  (stopped.1, stopped.2 ++ [.terminateLogging])

omit [DecidableEq Id] [DecidableEq Mod] in
/-- CRuntime::Update. The delta is clamped once, before anything ticks. -/
def CRuntime.update (rt : CRuntime Mod) (deltaTime : Rat) : List (Event Id Mod) :=
  let frameDelta := if maxFrameDelta < deltaTime then maxFrameDelta else deltaTime
  if rt.initialized then
    framePhases.flatMap (fun phase =>
      (rt.schedule phase).map (fun pModule => Event.update phase pModule frameDelta))
  else []

def CRuntime.quit (rt : CRuntime Mod) : CRuntime Mod := { rt with running := false }

def CRuntime.canRun (rt : CRuntime Mod) : Bool := rt.running

end TgeCore.Module
