import TgeCore.Library.Disk
import TgeCore.Library.Machine

namespace TgeCore.IO
open Library

/-- A name in some folder. Paths that mean the same name are the same here. -/
abbrev Path := String

abbrev Files := Disk Path UInt8 UInt32

/-- The errno of a call that failed, which is not 0. -/
structure Errno where
  code : Nat
  isError : 0 < code
deriving DecidableEq

def EINTR : Errno := ⟨4, Nat.zero_lt_succ _⟩

inductive ErrorCode where
  | system (errno : Errno)
  | ioError
deriving DecidableEq

def NewFileMode : UInt32 := 0o644

def PermissionBits : UInt32 := 0o7777

/-- The permissions that mkostemp gives the file it makes. -/
def temporaryMode : UInt32 := 0o600

/-- The path itself unless it can be resolved, which `canonical` says. -/
def resolveLink (path : Path) (canonical : Option Path) : Path := canonical.getD path

/-- The target's name with the six letters that mkostemp picks. -/
def temporaryPath (target letters : String) : Path := target ++ "." ++ letters

/-- The temporary file of a call: its name and its open descriptor. -/
structure Opened where
  temporaryPath : Path
  file : Nat
deriving DecidableEq

/-- The system call that a call of WriteFileAtomically makes next. -/
inductive Stage where
  | mkostemp
  | stat (opened : Opened)
  | fchmod (opened : Opened) (mode : UInt32)
  | write (opened : Opened) (numWritten : Nat)
  | fsync (opened : Opened)
  | close (opened : Opened) (error : Option ErrorCode)
  | rename (opened : Opened)
  | remove (opened : Opened) (error : ErrorCode)
  | done (error : Option ErrorCode)
  | lost
deriving DecidableEq

/-- How a system call ends. -/
inductive Outcome where
  | mkostemp (result : Except Errno String)
  | stat (isFound : Bool)
  | fchmod (failed : Option Errno)
  | write (result : Except Errno Nat)
  | fsync (failed : Option Errno)
  | close (failed : Option Errno)
  | rename (failed : Option Errno)
  | remove (isRemoved : Bool)

structure Call where
  target : Path
  content : List UInt8
  stage : Stage := .mkostemp

/-- WriteAll's loop goes on until all is written. -/
def Call.writeAll (c : Call) (opened : Opened) (numWritten : Nat) : Stage :=
  if numWritten < c.content.length then .write opened numWritten else .fsync opened

def getFileMode (disk : Files) (path : Path) (isFound : Bool) : Option UInt32 :=
  if isFound then ((disk.entries path).bind fun id => disk.inodes[id]?).map fun inode => inode.mode &&& PermissionBits
  else some NewFileMode

/-- One system call and what the code does up to the next. An error_code is none where there is no error. -/
def Call.step (c : Call) (disk : Files) (outcome : Outcome) : Option (Files × Stage) :=
  match c.stage, outcome with
  | .mkostemp, .mkostemp (.ok letters) =>
    if letters.length = 6 ∧ disk.entries (temporaryPath c.target letters) = none then
      some (disk.create (temporaryPath c.target letters) temporaryMode,
        .stat ⟨temporaryPath c.target letters, disk.inodes.length⟩)
    else none
  | .mkostemp, .mkostemp (.error errno) => some (disk, .done (some (.system errno)))
  | .stat opened, .stat isFound => (getFileMode disk c.target isFound).map fun mode => (disk, .fchmod opened mode)
  | .fchmod opened mode, .fchmod none => some (disk.chmod opened.file mode, c.writeAll opened 0)
  | .fchmod opened _, .fchmod (some errno) => some (disk, .close opened (some (.system errno)))
  | .write opened numWritten, .write (.ok count) =>
    if count ≤ c.content.length - numWritten then
      if 0 < count then
        some (disk.append opened.file ((c.content.drop numWritten).take count), c.writeAll opened (numWritten + count))
      else some (disk, .close opened (some .ioError))
    else none
  | .write opened numWritten, .write (.error errno) =>
    some (disk, if errno ≠ EINTR then .close opened (some (.system errno)) else .write opened numWritten)
  | .fsync opened, .fsync none => some (disk.sync opened.file, .close opened none)
  | .fsync opened, .fsync (some errno) => some (disk, .close opened (some (.system errno)))
  | .close opened (some error), .close _ => some (disk, .remove opened error)
  | .close opened none, .close (some errno) => some (disk, .remove opened (.system errno))
  | .close opened none, .close none => some (disk, .rename opened)
  | .rename opened, .rename none => some (disk.rename opened.temporaryPath c.target, .done none)
  | .rename opened, .rename (some errno) => some (disk, .remove opened (.system errno))
  | .remove opened error, .remove isRemoved =>
    some (if isRemoved then disk.unlink opened.temporaryPath else disk, .done (some error))
  | _, _ => none

/-- What a call returns when it is over. -/
def Stage.result : Stage → Option (Option ErrorCode)
  | .done error => some error
  | _ => none

/-- A loss of power ends the calls that have not returned. -/
def Stage.cut : Stage → Stage
  | .done error => .done error
  | _ => .lost

structure Writers where
  disk : Files
  calls : List Call := []

/-- The files on a disk, where every name is of a file that exists. -/
structure OnDisk where
  entries : Path → Option Nat
  inodes : List (Inode UInt8 UInt32)
  linked : ∀ name id, entries name = some id → id < inodes.length

def OnDisk.disk (files : OnDisk) : Files := { entries := files.entries, inodes := files.inodes }

def OnDisk.start (files : OnDisk) : Writers := { disk := files.disk }

inductive FileEvent where
  | call (path : Path) (canonical : Option Path) (content : List UInt8)
  | act (i : Nat) (outcome : Outcome)
  | powerLoss (torn : Nat → List UInt8) (back : Nat)

/-- A step, with the call that returns in it and what it returns. -/
def Writers.step (s : Writers) : FileEvent → Option (Writers × Option (Nat × Option ErrorCode))
  | .call path canonical content =>
    some ({ s with calls := s.calls ++ [{ target := resolveLink path canonical, content }] }, none)
  | .act i outcome =>
    (s.calls[i]?).bind fun c => (c.step s.disk outcome).map fun next =>
      ({ disk := next.1, calls := s.calls.set i { c with stage := next.2 } }, next.2.result.map fun error => (i, error))
  | .powerLoss torn back =>
    (s.disk.powerLoss torn back).map fun disk =>
      ({ disk, calls := s.calls.map fun c => { c with stage := c.stage.cut } }, none)

/-- Any number of callers whose steps come in any order. -/
def writers : Machine Writers FileEvent (Option (Nat × Option ErrorCode)) := ⟨Writers.step⟩

end TgeCore.IO
