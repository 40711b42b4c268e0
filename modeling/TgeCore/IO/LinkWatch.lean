import TgeCore.IO.DirectoryWatch
import TgeCore.IO.WriteFileAtomically

namespace TgeCore.IO
open Library

def ENOENT : Errno := ⟨2, Nat.zero_lt_succ _⟩

def EAGAIN : Errno := ⟨11, Nat.zero_lt_succ _⟩

def ENOMEM : Errno := ⟨12, Nat.zero_lt_succ _⟩

def ENOSPC : Errno := ⟨28, Nat.zero_lt_succ _⟩

inductive WatchError where
  | system (errno : Errno)
  | noSuchFileOrDirectory
deriving DecidableEq

/-- What inotify_add_watch gives for a path, which may lead through symbolic links. -/
abbrev AddAnswer := Except Errno Nat

/-- The entries of a folder that are folders or lead to one, and what
inotify_add_watch gives for each. -/
abbrev FolderListing := List (String × AddAnswer)

namespace Reading

/-- Where ReadChanges starts. It made its calls of inotify_rm_watch before, and what
they raise is among the events to come. -/
def begun (r : Reading) : Reading :=
  { r with newFolders := [], removing := [], isRootGone := false, shouldWalkAgain := false, changes := {} }

/-- ReadEvent of a tree watch. The flag is what symlink_status says of the event's path. -/
def readLinkEvent (r : Reading) (event : InotifyEvent) (isSymlink : Bool) : Reading :=
  if event.kind = .overflow then
    { r with shouldWalkAgain := true, changes := { r.changes with hasOverflowed := true } }
  else if event.wd = r.rootWatch ∧ event.kind.isRootGone then { r with isRootGone := true }
  else
    match r.folder event.wd with
    | none => r
    | some relative =>
      if event.kind = .ignored then { r with folders := r.folders.filter (·.1 ≠ event.wd) }
      else
        let path := relative ++ event.name.toList
        let isNewLink := event.kind.isArrival ∧ ¬ event.isDirectory ∧ isSymlink
        let r :=
          if (event.isDirectory ∨ isNewLink) ∧ event.kind.isArrival then
            { r with newFolders := r.newFolders ++ [path] }
          else if event.isDirectory ∧ event.kind = .movedFrom then r.forgetBelow path
          else r
        if path ≠ [] then { r with changes := { r.changes with paths := r.changes.paths ++ [path] } } else r

/-- The entry that the event says was moved away or deleted. -/
def departure (r : Reading) (event : InotifyEvent) : Option FolderPath :=
  if event.kind = .movedFrom ∨ event.kind = .delete then
    (r.folder event.wd).bind fun relative => event.name.map fun name => relative ++ [name]
  else none

end Reading

/-- A tree watch on folders and symbolic links to folders. -/
structure LinkWatch where
  reading : Reading
  /-- For a descriptor, what events said was moved away or deleted since it came into
  the map. The code has no such list, and nothing that the watch does depends on it. -/
  left : Nat → List FolderPath := fun _ => []

/-- What the system gives to a call of ReadChanges. -/
structure LinkCall where
  events : List (InotifyEvent × Bool) := []
  /-- The errno of the read that ends them, if that one failed. -/
  readErrno : Option Errno := some EAGAIN
  /-- For each new folder. The ones that are missing have gone again. -/
  adds : List (AddAnswer × List FolderListing) := []
  /-- For the root, where the tree is walked again, and the folders from there on. -/
  root : AddAnswer := .error ENOENT
  listings : List FolderListing := []

def LinkCall.readError (call : LinkCall) : Option WatchError :=
  (call.readErrno.filter fun errno => errno ≠ EAGAIN ∧ errno ≠ EINTR).map .system

namespace LinkWatch

def readEvent (w : LinkWatch) (event : InotifyEvent × Bool) : LinkWatch :=
  { reading := w.reading.readLinkEvent event.1 event.2
    left := fun wd => (w.reading.departure event.1).toList ++ w.left wd }

def readEvents (w : LinkWatch) (events : List (InotifyEvent × Bool)) : LinkWatch := events.foldl readEvent w

def put (w : LinkWatch) (wd : Nat) (relative : FolderPath) : LinkWatch :=
  { reading := { w.reading with folders := w.reading.folders ++ [(wd, relative)] }
    left := fun other => if other = wd then [] else w.left other }

/-- True for a folder newly watched. A descriptor that the map has keeps its path. -/
def addWatch (w : LinkWatch) (relative : FolderPath) : AddAnswer → Except WatchError (LinkWatch × Bool)
  | .ok wd =>
    match w.reading.folder wd with
    | some _ => .ok (w, false)
    | none => .ok (w.put wd relative, true)
  | .error errno => if errno = ENOSPC ∨ errno = ENOMEM then .error (.system errno) else .ok (w, false)

/-- WatchBelow's loop over the entries of one folder. -/
def watchEntries (w : LinkWatch) (relative : FolderPath) (pending : List FolderPath) :
    FolderListing → Except WatchError (LinkWatch × List FolderPath)
  | [] => .ok (w, pending)
  | (name, answer) :: entries =>
    (w.addWatch (relative ++ [name]) answer).bind fun (w, isAdded) =>
      w.watchEntries relative (if isAdded then pending ++ [relative ++ [name]] else pending) entries

/-- The folders left when there are no more listings have nothing in them to watch. -/
def watchBelow (w : LinkWatch) : List FolderPath → List FolderListing → Except WatchError LinkWatch
  | relative :: pending, entries :: listings =>
    (w.watchEntries relative pending entries).bind fun (w, pending) => w.watchBelow pending listings
  | _, _ => .ok w

/-- Initialize with the scope Tree. -/
def opened (root : AddAnswer) (listings : List FolderListing) : Except WatchError LinkWatch :=
  match root with
  | .error errno => .error (.system errno)
  | .ok rootWatch => watchBelow { reading := { rootWatch := rootWatch, folders := [(rootWatch, [])] } } [[]] listings

def addNewFolders (w : LinkWatch) :
    List FolderPath → List (AddAnswer × List FolderListing) → Except WatchError LinkWatch
  | [], _ => .ok w
  | folder :: folders, adds =>
    let (answer, listings) := adds.headD (.error ENOENT, [])
    (w.addWatch folder answer).bind fun (w, isAdded) =>
      (if isAdded then w.watchBelow [folder] listings else .ok w).bind fun w => w.addNewFolders folders adds.tail

def walkAgain (w : LinkWatch) (root : AddAnswer) (listings : List FolderListing) : Except WatchError LinkWatch :=
  match root with
  | .error _ => .error .noSuchFileOrDirectory
  | .ok wd =>
    if wd ≠ w.reading.rootWatch then .error .noSuchFileOrDirectory
    else { w with reading := w.reading.forgetBelow [] }.watchBelow [[]] listings

def readChanges (w : LinkWatch) (call : LinkCall) : Except WatchError (LinkWatch × DirectoryChanges) :=
  let w := { w with reading := w.reading.begun }.readEvents call.events
  let changes := w.reading.changes
  if w.reading.isRootGone then .error .noSuchFileOrDirectory
  else
    match call.readError with
    | some error => .error error
    | none =>
      (w.addNewFolders w.reading.newFolders call.adds).bind fun w =>
        (if w.reading.shouldWalkAgain then w.walkAgain call.root call.listings else .ok w).map fun w => (w, changes)

/-- No watched folder is mapped at or below an entry that an event said was moved
away or deleted, unless it was put there since. -/
def OldNamesGone (w : LinkWatch) : Prop :=
  ∀ folder ∈ w.reading.folders, ∀ path ∈ w.left folder.1, ¬ path <+: folder.2

instance OldNamesGone.decidable (w : LinkWatch) : Decidable w.OldNamesGone :=
  inferInstanceAs (Decidable (∀ folder ∈ w.reading.folders, ∀ path ∈ w.left folder.1, ¬ path <+: folder.2))

end LinkWatch

/-- The calls of ReadChanges until one gives an error, with which the watch has ended. -/
def linkMachine : Machine LinkWatch LinkCall DirectoryChanges := ⟨fun w call => (w.readChanges call).toOption⟩

end TgeCore.IO
