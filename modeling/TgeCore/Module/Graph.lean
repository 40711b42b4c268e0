import TgeCore.Module.Contract
import Mathlib.Logic.Function.Basic

namespace TgeCore.Module

variable {Id Mod : Type} [DecidableEq Id] (I : Interface Id Mod)

/-- Marks a module already placed in the vector of pending counts. -/
def emitted : UInt32 := 0xFFFFFFFF

def findLoaded (modules : List Mod) (pModuleId : Option Id) : Option Mod :=
  modules.find? (fun pModule => decide (some (I.getId pModule) = pModuleId))

/-- Notify edges carry no ordering. -/
def isOrderingDependency (kind : EDependencyKind) : Bool :=
  kind == .required || kind == .optional

def validateContract (pModule : Mod) : Bool × List LogLine :=
  let contractVersion := I.getContractVersion (I.getId pModule)
  if contractVersion ≠ moduleContractVersion then
    (false, [⟨.error, "Module '" ++ I.moduleName pModule ++
      "' was built against module contract " ++ toString contractVersion ++
      ", but this runtime provides " ++ toString moduleContractVersion⟩])
  else (true, [])

/-- The error one declaration causes, if any. -/
def dependencyError (pDependent : Mod) (modules : List Mod) (dependency : SDependency Id) :
    Option String :=
  match dependency.pModule with
  | none => some ("Module '" ++ I.moduleName pDependent ++ "' declares a null dependency")
  | some id =>
    if (findLoaded I modules (some id)).isNone then
      if dependency.kind = .required then
        some ("Module '" ++ I.moduleName pDependent ++ "' requires '" ++ I.getName id ++
          "', which this run context does not load")
      else none
    -- No kind is exempt from the version check, Notify included.
    else if isConstrained dependency.minVersion &&
        !satisfies (I.getVersion id) dependency.minVersion then
      some ("Module '" ++ I.moduleName pDependent ++ "' needs '" ++ I.getName id ++ "' " ++
        dependency.minVersion.format ++ " or a compatible later version, but " ++
        (I.getVersion id).format ++ " is loaded")
    else none

def validateDependencies (pDependent : Mod) (modules : List Mod) : Bool × List LogLine :=
  (I.getDependencies pDependent).foldl (fun state dependency =>
    match dependencyError I pDependent modules dependency with
    | some text => (false, state.2 ++ [⟨.error, text⟩])
    | none => state) (true, [])

/-- The first loop of Resolve: every offender is reported before the verdict. -/
def validateModules (modules : List Mod) : Bool × List LogLine :=
  modules.foldl (fun state pModule =>
    let contract := validateContract I pModule
    let dependencies := validateDependencies I pModule modules
    (state.1 && contract.1 && dependencies.1, state.2 ++ contract.2 ++ dependencies.2))
    (true, [])

def dependsOn (pDependent pDependency : Mod) : Bool :=
  (I.getDependencies pDependent).foldl (fun depends dependency =>
    depends || (isOrderingDependency dependency.kind &&
      decide (dependency.pModule = some (I.getId pDependency)))) false

/-- A declaration the pending count of its module counts. -/
def counts (modules : List Mod) (dependency : SDependency Id) : Bool :=
  isOrderingDependency dependency.kind && (findLoaded I modules dependency.pModule).isSome

/-- The 32-bit pending count a module starts with. -/
def waiting (modules : List Mod) (pModule : Mod) : UInt32 :=
  (I.getDependencies pModule).foldl (fun waiting dependency =>
    if counts I modules dependency then waiting + 1 else waiting) 0

def initialPending (modules : List Mod) : Fin modules.length → UInt32 :=
  fun index => waiting I modules modules[index]

/-- The downward scan for a module that waits on nothing; the last hit wins. -/
def nextReady {n : Nat} (pending : Fin n → UInt32) : Option (Fin n) :=
  (List.finRange n).reverse.foldl (fun next index =>
    if pending index = 0 then some index else next) none

/-- Marking `next` placed and releasing one count of every module that depends on it. -/
def release (modules : List Mod) (pending : Fin modules.length → UInt32)
    (next : Fin modules.length) : Fin modules.length → UInt32 :=
  let pending := Function.update pending next emitted
  fun index =>
    if pending index ≠ emitted ∧ dependsOn I modules[index] modules[next] = true then
      pending index - 1
    else pending index

def unplaced (modules : List Mod) (pending : Fin modules.length → UInt32) : List Mod :=
  ((List.finRange modules.length).filter (fun index => pending index ≠ emitted)).map
    (fun index => modules[index])

def cycleError (stuck : List Mod) : LogLine :=
  ⟨.error, "Module dependency cycle among: " ++
    (stuck.map (fun pModule => I.moduleName pModule ++ " ")).foldl (· ++ ·) "" ++
    "- none of them can initialize first"⟩

/-- What Resolve returns, leaves in `m_order` and logs. -/
structure Resolution (Mod : Type) where
  resolved : Bool
  order : List Mod
  log : List LogLine

/-- The placement loop. Each round places one module or gives up, so the number
of rounds left is what the loop condition compares: modules minus placed. -/
def place (modules : List Mod) :
    Nat → (Fin modules.length → UInt32) → List Mod → Resolution Mod
  | 0, _, order => ⟨true, order, []⟩
  | rounds + 1, pending, order =>
    match nextReady pending with
    | none => ⟨false, order, [cycleError I (unplaced modules pending)]⟩
    | some next => place modules rounds (release I modules pending next) (order ++ [modules[next]])

/-- CModuleGraph::Resolve. It clears `m_order` first, so no earlier order enters. -/
def resolve (modules : List Mod) : Resolution Mod :=
  let valid := validateModules I modules
  if valid.1 then
    let placed := place I modules modules.length (initialPending I modules) []
    { placed with log := valid.2 ++ placed.log }
  else ⟨false, [], valid.2⟩

end TgeCore.Module
