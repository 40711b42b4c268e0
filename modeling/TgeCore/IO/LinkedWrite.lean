import TgeCore.IO.WriteSteps
import TgeCore.Library.LinkTree

namespace TgeCore.IO
open Library LinkTree

/-- How many links the system follows on one path. -/
def MAXSYMLINKS : Nat := 40

/-- Files in folders, with links to them. -/
structure LinkedFiles where
  entries : List String → Option LinkEntry
  inodes : List (Inode UInt8 UInt32)

namespace LinkedFiles

/-- Where the system finds what a path means, for a process in its working folder. -/
def resolve (fs : LinkedFiles) (working : List String) (path : LinkPath) : Walked :=
  if path.names = [] ∧ ¬path.isAbsolute then .failed
  else walk fs.entries MAXSYMLINKS (path.start working) path.names

/-- The folder and the name in it that a path means for a call that does not follow a link there. -/
def place (fs : LinkedFiles) (working : List String) (path : LinkPath) : Option (List String × String) :=
  match walk fs.entries MAXSYMLINKS (path.start working) path.names.dropLast with
  | .folder folder => some (folder, path.names.getLastD "")
  | _ => none

def lstat (fs : LinkedFiles) (working : List String) (path : LinkPath) : Option LinkEntry :=
  (fs.place working path).bind fun place => fs.entries (place.1 ++ [place.2])

/-- What a reader of a path gets. -/
def read (fs : LinkedFiles) (working : List String) (path : LinkPath) : Option (List UInt8) :=
  match fs.resolve working path with
  | .file _ id => (fs.inodes[id]?).map Inode.content
  | _ => none

/-- The path without links, for one that leads to something. -/
def canonical (fs : LinkedFiles) (working : List String) (path : LinkPath) : Option LinkPath :=
  match fs.resolve working path with
  | .folder location => some ⟨true, location⟩
  | .file location _ => some ⟨true, location⟩
  | _ => none

def resolveLink (fs : LinkedFiles) (working : List String) (path : LinkPath) : LinkPath :=
  (fs.canonical working path).getD path

/-- The file that has a name in a folder. -/
def fileNames (entries : List String → Option LinkEntry) (folder : List String) (name : String) : Option Nat :=
  match entries (folder ++ [name]) with
  | some (.file id) => some id
  | _ => none

def files (fs : LinkedFiles) (folder : List String) : Files where
  entries := fileNames fs.entries folder
  inodes := fs.inodes

/-- What is in a place after a call has changed which files have a name in a folder. A folder or a
link is replaced only by a file that takes its name. -/
def putNames (entries : List String → Option LinkEntry) (folder : List String) (names : String → Option Nat)
    (location : List String) : Option LinkEntry :=
  match location.getLast? with
  | none => entries location
  | some name =>
    if location = folder ++ [name] then
      match names name, entries location with
      | some id, _ => some (.file id)
      | none, some (.file _) => none
      | none, entry => entry
    else entries location

def put (fs : LinkedFiles) (folder : List String) (disk : Files) : LinkedFiles where
  entries := putNames fs.entries folder disk.entries
  inodes := disk.inodes

/-- What the system allows where names are of folders and links too: mkostemp takes a name that
is free, and a rename never replaces a folder. -/
def allows (fs : LinkedFiles) (folder : List String) (c : Call) : Outcome → Bool
  | .mkostemp (.ok letters) => fs.entries (folder ++ [temporaryPath c.target letters]) = none
  | .rename none => fs.entries (folder ++ [c.target]) ≠ some .folder ∧ c.target ∉ ["", ".", ".."]
  | _ => true

/-- A system call of a call, in the folder where its target is. -/
def step (folder : List String) (s : LinkedFiles × Call) (outcome : Outcome) : Option ((LinkedFiles × Call) × Unit) :=
  if s.1.allows folder s.2 outcome then
    (s.2.step (s.1.files folder) outcome).map fun next => ((s.1.put folder next.1, { s.2 with stage := next.2 }), ())
  else none

def caller (folder : List String) : Machine (LinkedFiles × Call) Outcome Unit := ⟨step folder⟩

/-- A call from start to end, given how its system calls end. -/
def writeFileAtomically (fs : LinkedFiles) (working : List String) (path : LinkPath) (content : List UInt8)
    (outcomes : List Outcome) : Option (LinkedFiles × Option ErrorCode) :=
  match fs.place working (fs.resolveLink working path) with
  | some (folder, name) =>
    ((caller folder).run (fs, { target := name, content }) outcomes).bind fun last =>
      last.1.2.stage.result.map fun error => (last.1.1, error)
  | none =>
    -- without the folder there is no place for the temporary file either
    match outcomes with
    | [.mkostemp (.error errno)] => some (fs, some (.system errno))
    | _ => none

end LinkedFiles

/-- The files that a process finds, and where it works. -/
structure LinkedDisk where
  tree : LinkTree
  inodes : List (Inode UInt8 UInt32)
  working : List String
  isFolder : tree.entries working = some .folder

def LinkedDisk.files (disk : LinkedDisk) : LinkedFiles := ⟨disk.tree.entries, disk.inodes⟩

/-- The path is a link, and it leads to a file, over whatever other links, or to a name that its
folder does not have. -/
structure LinkedDisk.LinksToFile (disk : LinkedDisk) (path : LinkPath) : Prop where
  isLink : ∃ target, disk.files.lstat disk.working path = some (.link target)
  leads : ∃ folder name budget location, disk.files.place disk.working path = some (folder, name) ∧
    (walk disk.files.entries budget folder [name] = .absent location ∨
      ∃ id, walk disk.files.entries budget folder [name] = .file location id)

/-- After a call the path is still the same link, and a reader gets the new content through it. -/
def LinkedDisk.Preserved (disk : LinkedDisk) (path : LinkPath) (content : List UInt8) (after : LinkedFiles) : Prop :=
  after.lstat disk.working path = disk.files.lstat disk.working path ∧
    after.read disk.working path = some content

end TgeCore.IO
