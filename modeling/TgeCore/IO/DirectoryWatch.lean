import TgeCore.Library.Machine
import TgeCore.Library.PathTree

namespace TgeCore.IO
open Library

/-- The names on the way to a folder. -/
abbrev FolderPath := List String

inductive EventKind where
  | create | delete | closeWrite | movedFrom | movedTo | deleteSelf | moveSelf | unmount | ignored | overflow
deriving DecidableEq

/-- What a folder's watch says of an entry in it. -/
def EventKind.isOfEntry : EventKind → Bool
  | .create | .delete | .closeWrite | .movedFrom | .movedTo => true
  | _ => false

def EventKind.isArrival : EventKind → Bool
  | .create | .movedTo => true
  | _ => false

/-- RootGoneEvents. -/
def EventKind.isRootGone : EventKind → Bool
  | .deleteSelf | .moveSelf | .ignored | .unmount => true
  | _ => false

structure InotifyEvent where
  wd : Nat
  kind : EventKind
  isDirectory : Bool := false
  name : Option String := none
deriving DecidableEq

/-- The descriptor of an overflow is of no watch. -/
def overflowEvent : InotifyEvent := { wd := 0, kind := .overflow }

/-- The watches are pairs of a folder and its descriptor. -/
structure Inotify where
  tree : PathTree String
  watches : List (Nat × Nat) := []
  nextWatch : Nat := 1
  queue : List InotifyEvent := []

/-- A full queue drops the event and says so once. -/
def enqueueOne (queue : List InotifyEvent) (isFull : Bool) (event : InotifyEvent) : List InotifyEvent :=
  if isFull then if overflowEvent ∈ queue then queue else queue ++ [overflowEvent]
  else queue ++ [event]

/-- For each event the flag says if the queue is full then. There is room where flags are missing. -/
def enqueue : List InotifyEvent → List Bool → List InotifyEvent → List InotifyEvent
  | queue, _, [] => queue
  | queue, full, event :: events => enqueue (enqueueOne queue (full.headD false) event) full.tail events

namespace Inotify

def watchOf (k : Inotify) (folder : Nat) : Option Nat := (k.watches.find? (·.1 = folder)).map Prod.snd

def watchAt (k : Inotify) (path : FolderPath) : Option Nat := (k.tree.find path).bind k.watchOf

/-- What the watch of the folder says, if it has one. -/
def eventsAt (k : Inotify) (path : FolderPath) (kind : EventKind) (isDirectory : Bool) (name : Option String) :
    List InotifyEvent :=
  (k.watchAt path).toList.map fun wd => { wd := wd, kind := kind, isDirectory := isDirectory, name := name }

/-- A removed folder's watch goes with it. -/
def eventsOfGone (k : Inotify) (path : FolderPath) : List InotifyEvent :=
  k.eventsAt path .deleteSelf false none ++ k.eventsAt path .ignored false none

def watchesWithout (k : Inotify) (path : FolderPath) : List (Nat × Nat) :=
  k.watches.filter fun watch => k.tree.find path ≠ some watch.1

/-- inotify_add_watch with IN_ONLYDIR: the descriptor, unless no folder is there. -/
def addWatch (k : Inotify) (path : FolderPath) : Option (Nat × Inotify) :=
  (k.tree.find path).map fun folder =>
    match k.watchOf folder with
    | some wd => (wd, k)
    | none =>
      (k.nextWatch, { k with watches := k.watches ++ [(folder, k.nextWatch)], nextWatch := k.nextWatch + 1 })

def rmWatch (k : Inotify) (wd : Nat) (full : List Bool) : Inotify :=
  if ∃ watch ∈ k.watches, watch.2 = wd then
    { k with
      watches := k.watches.filter (·.2 ≠ wd)
      queue := enqueue k.queue full [{ wd := wd, kind := .ignored }] }
  else k

end Inotify

/-- What others do to the file system. -/
inductive FolderChange where
  | create (parent : FolderPath) (name : String)
  | remove (parent : FolderPath) (name : String)
  | rename (oldParent : FolderPath) (oldName : String) (newParent : FolderPath) (newName : String)
  | file (parent : FolderPath) (kind : EventKind) (name : String)
deriving DecidableEq

/-- The entries that a change takes out of their folders. -/
def FolderChange.taken : FolderChange → List (FolderPath × String)
  | .create _ _ | .file _ _ _ => []
  | .remove parent name => [(parent, name)]
  | .rename oldParent oldName newParent newName => [(oldParent, oldName), (newParent, newName)]

/-- The root itself, and what it is in, stays. -/
def Inotify.change (k : Inotify) (root : FolderPath) (full : List Bool) : FolderChange → Option Inotify
  | .create parent name =>
    (k.tree.create parent name).map fun tree =>
      { k with tree := tree, queue := enqueue k.queue full (k.eventsAt parent .create true (some name)) }
  | .remove parent name =>
    if parent ++ [name] <+: root then none else
    (k.tree.remove (parent ++ [name])).map fun tree =>
      { k with
        tree := tree
        watches := k.watchesWithout (parent ++ [name])
        queue := enqueue k.queue full
          (k.eventsAt parent .delete true (some name) ++ k.eventsOfGone (parent ++ [name])) }
  | .rename oldParent oldName newParent newName =>
    if oldParent ++ [oldName] <+: root ∨ newParent ++ [newName] <+: root then none else
    (k.tree.move (oldParent ++ [oldName]) newParent newName).map fun tree =>
      { k with
        tree := tree
        watches := k.watchesWithout (newParent ++ [newName])
        queue := enqueue k.queue full
          (k.eventsAt oldParent .movedFrom true (some oldName) ++ k.eventsAt newParent .movedTo true (some newName) ++
            k.eventsAt (oldParent ++ [oldName]) .moveSelf false none ++ k.eventsOfGone (newParent ++ [newName])) }
  | .file parent kind name =>
    if (k.tree.find parent).isSome ∧ kind.isOfEntry then
      some { k with queue := enqueue k.queue full (k.eventsAt parent kind false (some name)) }
    else none

structure DirectoryChanges where
  paths : List FolderPath := []
  hasOverflowed : Bool := false
deriving DecidableEq

/-- The watch's folders in the order of their descriptors, and what a call of
ReadChanges gathers from the events. -/
structure Reading where
  rootWatch : Nat
  folders : List (Nat × FolderPath)
  newFolders : List FolderPath := []
  /-- What ForgetBelow has still to pass to inotify_rm_watch. -/
  removing : List Nat := []
  isRootGone : Bool := false
  shouldWalkAgain : Bool := false
  changes : DirectoryChanges := {}

namespace Reading

def folder (r : Reading) (wd : Nat) : Option FolderPath := (r.folders.find? (·.1 = wd)).map Prod.snd

/-- The entries go at once here, as nobody looks between two calls of inotify_rm_watch. -/
def forgetBelow (r : Reading) (relative : FolderPath) : Reading :=
  { r with
    folders := r.folders.filter fun folder => ¬ (folder.1 ≠ r.rootWatch ∧ relative <+: folder.2)
    removing := r.removing ++
      (r.folders.filter fun folder => folder.1 ≠ r.rootWatch ∧ relative <+: folder.2).map Prod.fst }

/-- The root has no symbolic links below it, so nothing arrives as a new link. -/
def readEvent (r : Reading) (event : InotifyEvent) : Reading :=
  if event.kind = .overflow then
    { r with shouldWalkAgain := true, changes := { r.changes with hasOverflowed := true } }
  else if event.wd = r.rootWatch ∧ event.kind.isRootGone then { r with isRootGone := true }
  else
    match r.folder event.wd with
    | none => r
    | some relative =>
      if event.kind = .ignored then { r with folders := r.folders.filter (·.1 ≠ event.wd) }
      else
        let path := relative ++ event.name.toList
        let r :=
          if event.isDirectory ∧ event.kind.isArrival then { r with newFolders := r.newFolders ++ [path] }
          else if event.isDirectory ∧ event.kind = .movedFrom then r.forgetBelow path
          else r
        if path ≠ [] then { r with changes := { r.changes with paths := r.changes.paths ++ [path] } } else r

end Reading

/-- A directory_iterator of WatchBelow. It must still give the unseen names and
may give any that came or went since it was opened. -/
structure Listing where
  relative : FolderPath
  folder : Nat
  unseen : List String
deriving DecidableEq

/-- A watch that failed has ended, so there is nothing to do after it. -/
inductive Phase where
  | idle
  | reading (batch : List InotifyEvent)
  | adding
  | walking (pending : List FolderPath) (listing : Option Listing)
  | failed
deriving DecidableEq

structure WatchState where
  root : FolderPath
  inotify : Inotify
  reading : Reading
  phase : Phase

/-- What the watch does next, one system call at most. -/
inductive WatchAct where
  | begin
  | read (count : Nat)
  | event
  | readEnds (isInterrupted : Bool)
  | add
  | openFolder
  | entry (name : String)
  | endListing
  | endWalk
  | walkAgain
  | finish
  | fail

inductive WatchInput where
  | change (change : FolderChange) (full : List Bool)
  | rmWatch (full : List Bool)
  | act (act : WatchAct)

/-- A listing may or may not give the names that were taken out of its folder. -/
def Phase.after (tree : PathTree String) (change : FolderChange) : Phase → Phase
  | .walking pending (some listing) =>
    .walking pending (some { listing with
      unseen := listing.unseen.filter fun name =>
        ¬ ∃ entry ∈ change.taken, tree.find entry.1 = some listing.folder ∧ entry.2 = name })
  | phase => phase

namespace WatchState

/-- Initialize as far as its call of WatchBelow. -/
def opened (tree : PathTree String) (root : FolderPath) : Option WatchState :=
  (Inotify.addWatch { tree := tree } root).map fun (rootWatch, inotify) =>
    { root := root
      inotify := inotify
      reading := { rootWatch := rootWatch, folders := [(rootWatch, [])] }
      phase := .walking [[]] none }

/-- True for a folder newly watched. Descriptors only grow, so it is the last one of the map. -/
def addWatch (s : WatchState) (relative : FolderPath) : WatchState × Bool :=
  match s.inotify.addWatch (s.root ++ relative) with
  | none => (s, false)
  | some (wd, inotify) =>
    match s.reading.folder wd with
    | some _ => ({ s with inotify := inotify }, false)
    | none =>
      ({ s with
        inotify := inotify
        reading := { s.reading with folders := s.reading.folders ++ [(wd, relative)] } }, true)

/-- A step of Initialize or ReadChanges, and what the call returns if it is its last. -/
def act (s : WatchState) : WatchAct → Option (WatchState × Option DirectoryChanges)
  | .begin =>
    match s.phase with
    | .idle =>
      some ({ s with
        reading := { s.reading with newFolders := [], isRootGone := false, shouldWalkAgain := false, changes := {} }
        phase := .reading [] }, none)
    | _ => none
  | .read count =>
    match s.phase with
    | .reading [] =>
      if 0 < count ∧ count ≤ s.inotify.queue.length then
        some ({ s with
          inotify := { s.inotify with queue := s.inotify.queue.drop count }
          phase := .reading (s.inotify.queue.take count) }, none)
      else none
    | _ => none
  | .event =>
    match s.phase with
    | .reading (event :: batch) => some ({ s with reading := s.reading.readEvent event, phase := .reading batch }, none)
    | _ => none
  | .readEnds isInterrupted =>
    match s.phase with
    | .reading [] =>
      if s.inotify.queue = [] ∨ isInterrupted then
        some ({ s with phase := if s.reading.isRootGone then .failed else .adding }, none)
      else none
    | _ => none
  | .add =>
    match s.phase, s.reading.newFolders with
    | .adding, relative :: newFolders =>
      let (s, isAdded) := { s with reading := { s.reading with newFolders := newFolders } }.addWatch relative
      some (if isAdded then { s with phase := .walking [relative] none } else s, none)
    | _, _ => none
  | .openFolder =>
    match s.phase with
    | .walking (relative :: pending) none =>
      some ({ s with
        phase := .walking pending ((s.inotify.tree.find (s.root ++ relative)).map fun folder =>
          { relative := relative, folder := folder, unseen := s.inotify.tree.children (s.root ++ relative) }) }, none)
    | _ => none
  | .entry name =>
    match s.phase with
    | .walking pending (some listing) =>
      let child := listing.relative ++ [name]
      let listing := { listing with unseen := listing.unseen.filter (· ≠ name) }
      let (s, isAdded) := s.addWatch child
      some ({ s with phase := .walking (if isAdded then pending ++ [child] else pending) (some listing) }, none)
    | _ => none
  | .endListing =>
    match s.phase with
    | .walking pending (some listing) =>
      if listing.unseen = [] then some ({ s with phase := .walking pending none }, none) else none
    | _ => none
  | .endWalk =>
    match s.phase with
    | .walking [] none => some ({ s with phase := .adding }, none)
    | _ => none
  | .walkAgain =>
    match s.phase, s.reading.newFolders, s.reading.shouldWalkAgain with
    | .adding, [], true =>
      (s.inotify.addWatch s.root).map fun (wd, inotify) =>
        if wd ≠ s.reading.rootWatch then ({ s with inotify := inotify, phase := .failed }, none)
        else
          ({ s with
            inotify := inotify
            reading := { s.reading.forgetBelow [] with shouldWalkAgain := false }
            phase := .walking [[]] none }, none)
    | _, _, _ => none
  | .finish =>
    match s.phase, s.reading.newFolders, s.reading.shouldWalkAgain with
    | .adding, [], false => some ({ s with phase := .idle }, some s.reading.changes)
    | _, _, _ => none
  | .fail =>
    match s.phase with
    | .idle | .failed => none
    | _ => some ({ s with phase := .failed }, none)

/-- ForgetBelow makes its calls before anything else is done. -/
def step (s : WatchState) : WatchInput → Option (WatchState × Option DirectoryChanges)
  | .change change full =>
    (s.inotify.change s.root full change).map fun inotify =>
      ({ s with inotify := inotify, phase := s.phase.after s.inotify.tree change }, none)
  | .rmWatch full =>
    match s.reading.removing with
    | [] => none
    | wd :: removing =>
      some ({ s with
        inotify := s.inotify.rmWatch wd full
        reading := { s.reading with removing := removing } }, none)
  | .act act => if s.reading.removing = [] then s.act act else none

end WatchState

def watchMachine : Machine WatchState WatchInput (Option DirectoryChanges) := ⟨WatchState.step⟩

end TgeCore.IO
