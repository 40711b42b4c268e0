import Mathlib.Logic.Function.Basic

namespace TgeCore.Library

/-- What a descriptor refers to, and whether an exec closes it. -/
structure Descriptor (F : Type*) where
  file : F
  closeOnExec : Bool := false
deriving DecidableEq

/-- The descriptors of a process. -/
abbrev Descriptors (F : Type*) := Nat → Option (Descriptor F)

inductive EAccess where
  | readOnly
  | writeOnly
deriving DecidableEq

/-- What opening a path gives, and which directories can be entered. -/
structure FileSystem (F : Type*) where
  file? : String → EAccess → Option F
  canEnter : String → Bool

/-- An action that posix_spawn performs in the child. -/
inductive FileAction where
  | dup2 (fd newFd : Nat)
  | open (fd : Nat) (path : String) (access : EAccess)
  | chdir (path : String)
  | closeFrom (first : Nat)
deriving DecidableEq

namespace Descriptors
variable {F : Type*}

def close (t : Descriptors F) (fd : Nat) : Descriptors F := Function.update t fd none

/-- A descriptor that refers to a file and stays open through an exec. -/
def set (t : Descriptors F) (fd : Nat) (file : F) : Descriptors F := Function.update t fd (some { file })

/-- dup2 clears close-on-exec, as an action also where it is of a descriptor onto itself. -/
def dup2 (t : Descriptors F) (fd newFd : Nat) : Option (Descriptors F) := (t fd).map fun d => t.set newFd d.file

/-- The descriptor that open gives, where `fd` is not in use. -/
def lowestFree (t : Descriptors F) (fd : Nat) : Nat := ((List.range fd).find? fun other => (t other).isNone).getD fd

/-- An open action closes its descriptor, opens the file and moves it where it belongs. -/
def openAt (t : Descriptors F) (fd : Nat) (file : F) : Option (Descriptors F) :=
  let closed := t.close fd
  let newFd := closed.lowestFree fd
  let opened := closed.set newFd file
  if newFd = fd then some opened else (opened.dup2 newFd fd).map fun moved => moved.close newFd

def closeFrom (t : Descriptors F) (first : Nat) : Descriptors F := fun fd => if first ≤ fd then none else t fd

def perform (fs : FileSystem F) (t : Descriptors F) : FileAction → Option (Descriptors F)
  | .dup2 fd newFd => t.dup2 fd newFd
  | .open fd path access => (fs.file? path access).bind fun file => t.openAt fd file
  | .chdir path => if fs.canEnter path then some t else none
  | .closeFrom first => some (t.closeFrom first)

/-- The actions one after the other. The first that fails ends the child. -/
def performAll (fs : FileSystem F) : Descriptors F → List FileAction → Option (Descriptors F)
  | t, [] => some t
  | t, action :: rest => (t.perform fs action).bind fun t' => performAll fs t' rest

def exec (t : Descriptors F) : Descriptors F := fun fd => (t fd).filter fun d => !d.closeOnExec

section Lemmas
variable {t : Descriptors F} {fd other : Nat} {file : F}

@[simp] theorem set_self (t : Descriptors F) (fd : Nat) (file : F) : t.set fd file fd = some { file } :=
  Function.update_self ..

theorem set_of_ne (t : Descriptors F) (hne : other ≠ fd) (file : F) : t.set fd file other = t other :=
  Function.update_of_ne hne ..

@[simp] theorem close_self (t : Descriptors F) (fd : Nat) : t.close fd fd = none := Function.update_self ..

theorem close_of_ne (t : Descriptors F) (hne : other ≠ fd) : t.close fd other = t other := Function.update_of_ne hne ..

theorem lowestFree_spec (hfree : t fd = none) : t (t.lowestFree fd) = none := by
  unfold lowestFree
  cases hfind : (List.range fd).find? fun other => (t other).isNone with
  | none => exact hfree
  | some low =>
    have hlow : (t low).isNone = true := by simpa using List.find?_some hfind
    exact Option.isNone_iff_eq_none.mp hlow

theorem dup2_eq (h : t fd = some { file }) (newFd : Nat) : t.dup2 fd newFd = some (t.set newFd file) := by
  unfold dup2
  rw [h, Option.map_some]

/-- Wherever the file is opened first, it ends up at its descriptor, and the others stay. -/
theorem openAt_eq (t : Descriptors F) (fd : Nat) (file : F) : t.openAt fd file = some (t.set fd file) := by
  have hfree := lowestFree_spec (t.close_self fd)
  simp only [openAt]
  generalize (t.close fd).lowestFree fd = low at hfree ⊢
  by_cases hsame : low = fd
  · rw [if_pos hsame, hsame, Option.some_inj]
    funext other
    by_cases hother : other = fd
    · rw [hother, set_self, set_self]
    · rw [set_of_ne _ hother, set_of_ne _ hother, close_of_ne _ hother]
  · rw [if_neg hsame, dup2_eq (set_self _ low file), Option.map_some, Option.some_inj]
    funext other
    by_cases hlow : other = low
    · rw [hlow, close_self, set_of_ne _ hsame, ← close_of_ne t hsame, hfree]
    · rw [close_of_ne _ hlow]
      by_cases hother : other = fd
      · rw [hother, set_self, set_self]
      · rw [set_of_ne _ hother, set_of_ne _ hother, set_of_ne _ hlow, close_of_ne _ hother]

theorem exec_closeFrom_of_lt {first : Nat} (hlt : fd < first) (h : t fd = some { file }) :
    (t.closeFrom first).exec fd = some { file } := by
  unfold exec closeFrom
  rw [if_neg (Nat.not_le_of_lt hlt), h]
  rfl

theorem exec_closeFrom_of_le (t : Descriptors F) {first : Nat} (hle : first ≤ fd) : (t.closeFrom first).exec fd = none := by
  unfold exec closeFrom
  rw [if_pos hle]
  rfl

end Lemmas

end Descriptors

end TgeCore.Library
