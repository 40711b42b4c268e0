import Mathlib.Data.List.Basic

namespace TgeCore.Module

/-- The levels the runtime logs at. -/
inductive ELogLevel where
  | error
  | info
deriving DecidableEq, Repr

/-- One line written to gLog. -/
structure LogLine where
  level : ELogLevel
  text : String
deriving DecidableEq, Repr

structure SVersion where
  major : UInt16 := 0
  minor : UInt16 := 0
  patch : UInt16 := 0
deriving DecidableEq, Repr

def SVersion.format (version : SVersion) : String :=
  toString version.major ++ "." ++ toString version.minor ++ "." ++ toString version.patch

/-- A newer major fails the same as a too-old one. -/
def satisfies (loaded required : SVersion) : Bool :=
  loaded.major == required.major &&
    (decide (loaded.minor > required.minor) ||
      (loaded.minor == required.minor && decide (loaded.patch ≥ required.patch)))

def isConstrained (version : SVersion) : Bool :=
  version.major != 0 || version.minor != 0 || version.patch != 0

/-- An unset constraint is satisfied by anything. -/
theorem isConstrained_default : isConstrained {} = false := by decide

def moduleContractVersion : UInt32 := 1

inductive EDependencyKind where
  | required
  | optional
  | notify
deriving DecidableEq, Repr

/-- `pModule` is a pointer to a module's identity, `none` being nullptr. -/
structure SDependency (Id : Type) where
  pModule : Option Id := none
  kind : EDependencyKind := .required
  minVersion : SVersion := {}
deriving DecidableEq, Repr

/-- The getters of IModuleId and IModule. Elements of `Id` and `Mod` stand for
non-null pointers, which the runtime compares and never looks behind. -/
structure Interface (Id Mod : Type) where
  getName : Id → String
  getVersion : Id → SVersion
  getContractVersion : Id → UInt32
  getId : Mod → Id
  getDependencies : Mod → List (SDependency Id)

variable {Id Mod : Type}

/-- IModule::GetName, the name of the module's identity. -/
def Interface.moduleName (I : Interface Id Mod) (pModule : Mod) : String :=
  I.getName (I.getId pModule)

/-- Distinct modules of the list have distinct identities. Listing one module
again is allowed. -/
def DistinctIds (I : Interface Id Mod) (modules : List Mod) : Prop :=
  ∀ a ∈ modules, ∀ b ∈ modules, I.getId a = I.getId b → a = b

end TgeCore.Module
