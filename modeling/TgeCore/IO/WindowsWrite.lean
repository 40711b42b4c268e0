import TgeCore.IO.WriteFileAtomically

namespace TgeCore.IO.OnWindows
open Library

/-- Files without permissions. -/
abbrev WindowsFiles := Disk Path UInt8 Unit

def NumTemporaryNameTries : Nat := 100

def TemporaryNameCharacters : List Char :=
  ['a', 'b', 'c', 'd', 'e', 'f', 'g', 'h', 'i', 'j', 'k', 'l', 'm',
    'n', 'o', 'p', 'q', 'r', 's', 't', 'u', 'v', 'w', 'x', 'y', 'z',
    'A', 'B', 'C', 'D', 'E', 'F', 'G', 'H', 'I', 'J', 'K', 'L', 'M',
    'N', 'O', 'P', 'Q', 'R', 'S', 'T', 'U', 'V', 'W', 'X', 'Y', 'Z',
    '0', '1', '2', '3', '4', '5', '6', '7', '8', '9']

def ERROR_INVALID_FUNCTION : Nat := 1

def ERROR_NOT_SUPPORTED : Nat := 50

def ERROR_FILE_EXISTS : Nat := 80

def ERROR_INVALID_PARAMETER : Nat := 87

def ERROR_ALREADY_EXISTS : Nat := 183

/-- The errors that compare equal to errc::file_exists. -/
def isFileExists (error : Errno) : Bool := error.code = ERROR_FILE_EXISTS || error.code = ERROR_ALREADY_EXISTS

/-- A file system that does not have the Ex form of the rename says so with one of these. -/
def lacksEx (error : Errno) : Bool :=
  error.code = ERROR_INVALID_PARAMETER || error.code = ERROR_NOT_SUPPORTED || error.code = ERROR_INVALID_FUNCTION

/-- What the bytes of one WriteFile are counted in. -/
def maxDWORD : Nat := 0xFFFFFFFF

/-- Whether the open file goes when it is closed: at once, or with the last of its handles, which others may have. -/
inductive Deletion where
  | none
  | posix
  | classic
deriving DecidableEq

def Deletion.isGone (isLast : Bool) : Deletion → Bool
  | .none => false
  | .posix => true
  | .classic => isLast

/-- The system call that a call of WriteFileAtomically makes next, with which form of it is tried. After an error the
open file may have been marked to be deleted. -/
inductive WriteStage where
  | create (numTries : Nat)
  | write (opened : Opened) (numWritten : Nat)
  | flush (opened : Opened)
  | rename (opened : Opened) (isEx : Bool)
  | delete (opened : Opened) (error : ErrorCode) (isEx : Bool)
  | close (opened : Opened) (failed : Option (ErrorCode × Deletion))
  | done (error : Option ErrorCode)
  | lost (isPlaced : Bool)

/-- How a system call ends. A close may be that of the last handle. -/
inductive WriteOutcome where
  | create (letters : String) (failed : Option Errno)
  | write (result : Except Errno Nat)
  | flush (failed : Option Errno)
  | rename (failed : Option Errno)
  | delete (isSet : Bool)
  | close (isLast : Bool)

structure WriteCall where
  target : Path
  content : List UInt8
  stage : WriteStage := .create 0

/-- WriteAll's loop goes on until all is written. -/
def WriteCall.writeAll (c : WriteCall) (opened : Opened) (numWritten : Nat) : WriteStage :=
  if numWritten < c.content.length then .write opened numWritten else .flush opened

/-- One system call and what the code does up to the next. -/
def WriteCall.step (c : WriteCall) (disk : WindowsFiles) (outcome : WriteOutcome) :
    Option (WindowsFiles × WriteStage) :=
  match c.stage, outcome with
  | .create _, .create letters none =>
    let path := temporaryPath c.target letters
    if letters.length = 6 ∧ letters.toList.all TemporaryNameCharacters.contains = true ∧
        disk.entries path = none then
      some (disk.create path (), c.writeAll ⟨path, disk.inodes.length⟩ 0)
    else none
  | .create numTries, .create _ (some error) =>
    some (disk, if isFileExists error ∧ numTries + 1 < NumTemporaryNameTries then .create (numTries + 1)
      else .done (some (.system error)))
  | .write opened numWritten, .write (.ok count) =>
    if count ≤ min (c.content.length - numWritten) maxDWORD then
      if count = 0 then some (disk, .delete opened .ioError true)
      else
        some (disk.append opened.file ((c.content.drop numWritten).take count), c.writeAll opened (numWritten + count))
    else none
  | .write opened _, .write (.error error) => some (disk, .delete opened (.system error) true)
  | .flush opened, .flush none => some (disk.sync opened.file, .rename opened true)
  | .flush opened, .flush (some error) => some (disk, .delete opened (.system error) true)
  | .rename opened _, .rename none => some (disk.rename opened.temporaryPath c.target, .close opened none)
  | .rename opened isEx, .rename (some error) =>
    some (disk, if isEx ∧ lacksEx error then .rename opened false else .delete opened (.system error) true)
  | .delete opened error isEx, .delete isSet =>
    some (disk,
      if isSet then .close opened (some (error, if isEx then .posix else .classic))
      else if isEx then .delete opened error false
      else .close opened (some (error, .none)))
  | .close _ none, .close _ => some (disk, .done none)
  | .close opened (some (error, deletion)), .close isLast =>
    some (if deletion.isGone isLast then disk.unlink opened.temporaryPath else disk, .done (some error))
  | _, _ => none

def WriteStage.result : WriteStage → Option (Option ErrorCode)
  | .done error => some error
  | _ => none

/-- The temporary file has taken the target's place. -/
def WriteStage.isPlaced : WriteStage → Bool
  | .close _ none => true
  | .done none => true
  | .lost isPlaced => isPlaced
  | _ => false

/-- A loss of power ends the calls that have not returned. -/
def WriteStage.cut : WriteStage → WriteStage
  | .done error => .done error
  | stage => .lost stage.isPlaced

structure WindowsWriters where
  disk : WindowsFiles
  calls : List WriteCall := []

/-- A call resolves the path, and may fail to make it absolute, which does not change what it names. -/
inductive WriteEvent where
  | call (path : Path) (canonical : Option Path) (failed : Option Errno) (content : List UInt8)
  | act (i : Nat) (outcome : WriteOutcome)
  | powerLoss (torn : Nat → List UInt8) (back : Nat)

/-- Where a call is once its path is absolute, or has failed to become so. -/
def firstStage (failed : Option Errno) : WriteStage :=
  match failed with
  | none => .create 0
  | some error => .done (some (.system error))

/-- A step, with the call that returns in it and what it returns. -/
def WindowsWriters.step (s : WindowsWriters) : WriteEvent →
    Option (WindowsWriters × Option (Nat × Option ErrorCode))
  | .call path canonical failed content =>
    let call : WriteCall := { target := resolveLink path canonical, content, stage := firstStage failed }
    some ({ s with calls := s.calls ++ [call] }, (firstStage failed).result.map fun error => (s.calls.length, error))
  | .act i outcome =>
    (s.calls[i]?).bind fun c => (c.step s.disk outcome).map fun next =>
      ({ disk := next.1, calls := s.calls.set i { c with stage := next.2 } }, next.2.result.map fun error => (i, error))
  | .powerLoss torn back =>
    (s.disk.powerLoss torn back).map fun disk =>
      ({ disk, calls := s.calls.map fun c => { c with stage := c.stage.cut } }, none)

/-- Any number of callers whose steps come in any order. -/
def windowsWriters : Machine WindowsWriters WriteEvent (Option (Nat × Option ErrorCode)) := ⟨WindowsWriters.step⟩

end TgeCore.IO.OnWindows
