import TgeCore.Logging.LogSystem

namespace TgeCore.Memory
open Logging

abbrev CategoryId := UInt16

namespace Category

def Global : CategoryId := 0

def Other : CategoryId := 1

def BuiltInCount : Nat := 2

end Category

def MaxCategories : Nat := 256

structure SStats where
  allocated : UInt64 := 0
  deallocated : UInt64 := 0
  peakUsage : UInt64 := 0
  allocationCount : UInt32 := 0
  deallocationCount : UInt32 := 0
deriving DecidableEq

def SStats.getCurrentUsage (s : SStats) : UInt64 := s.allocated - s.deallocated

/-- What the tracking mutex guards. -/
structure Tracker where
  categoryStats : Vector SStats MaxCategories := Vector.replicate MaxCategories {}
  categoryNames : Vector String MaxCategories :=
    ((Vector.replicate MaxCategories "").set 0 "Global" (by decide)).set 1 "Other" (by decide)
  numCategories : Nat := Category.BuiltInCount
  bounded : numCategories ≤ MaxCategories := by decide

namespace Tracker

/-- The assertion fails for one category too many. -/
def registerCategory (t : Tracker) (name : String) : Option (CategoryId × Tracker) :=
  if h : t.numCategories < MaxCategories then
    some (UInt16.ofNat t.numCategories,
      { t with
        categoryNames := t.categoryNames.set t.numCategories name h
        numCategories := t.numCategories + 1
        bounded := h })
  else none

def getNumCategories (t : Tracker) : Nat := t.numCategories

/-- A category past the table is undefined behaviour, here and below. -/
def trackAllocation (t : Tracker) (category : CategoryId) (bytes : UInt64) : Option (Unit × Tracker) :=
  if h : category.toNat < MaxCategories then
    let stats := t.categoryStats[category.toNat]
    let added := { stats with allocated := stats.allocated + bytes, allocationCount := stats.allocationCount + 1 }
    let currentUsage := added.getCurrentUsage
    let peaked := if currentUsage > added.peakUsage then { added with peakUsage := currentUsage } else added
    some ((), { t with categoryStats := t.categoryStats.set category.toNat peaked h })
  else none

def trackDeallocation (t : Tracker) (category : CategoryId) (bytes : UInt64) : Option (Unit × Tracker) :=
  if h : category.toNat < MaxCategories then
    let stats := t.categoryStats[category.toNat]
    let removed :=
      { stats with deallocated := stats.deallocated + bytes, deallocationCount := stats.deallocationCount + 1 }
    some ((), { t with categoryStats := t.categoryStats.set category.toNat removed h })
  else none

def getStats (t : Tracker) (category : CategoryId) : Option (SStats × Tracker) :=
  if h : category.toNat < MaxCategories then some (t.categoryStats[category.toNat], t) else none

/-- The sum over the registered categories, which wraps. -/
def total (t : Tracker) (field : SStats → UInt64) : UInt64 :=
  (t.categoryStats.toList.take t.numCategories).foldl (fun total stats => total + field stats) 0

def getTotalAllocated (t : Tracker) : UInt64 := t.total SStats.allocated

def getTotalDeallocated (t : Tracker) : UInt64 := t.total SStats.deallocated

def getCurrentUsage (t : Tracker) : UInt64 := t.total SStats.getCurrentUsage

def getNumAllocations (t : Tracker) : UInt64 := t.total fun stats => stats.allocationCount.toUInt64

def getCategoryName (t : Tracker) (category : CategoryId) : Option (String × Tracker) :=
  if h : category.toNat < MaxCategories then some (t.categoryNames[category.toNat], t) else none

def reset (t : Tracker) : Tracker := { t with categoryStats := Vector.replicate MaxCategories {} }

end Tracker

/-- One use of the global operators. Operator delete finds the category and size in the header. -/
inductive Traffic where
  | new (size : UInt64)
  | delete (category : CategoryId) (size : UInt64)
deriving DecidableEq

/-- The calls into the standard library that the tracker's log lines lead to. -/
inductive StdCall where
  | format (text : String)
  | stream (text : String)
  | makeShared
  | terminal (msg : SLogMessage)
  | file (msg : SLogMessage)
  | pushBack (pending : Nat)
deriving DecidableEq

/-- The standard library: how long a string may be that it keeps without an allocation, what
else it allocates and frees, and how it prints a number of bytes in a unit with two digits. -/
structure StdLib where
  inPlace : Nat
  inPlace_le : inPlace ≤ 22
  traffic : StdCall → List Traffic
  fixed : UInt64 → Nat → String
  now : Now

/-- A thread that calls the tracker, with all that it reads: the tracker and whether the thread
holds its mutex, its current category, and the log system and the channel it logs to. -/
structure Thread where
  tracker : Tracker := {}
  held : Bool := false
  currentCategory : CategoryId := Category.Global
  initialized : Bool := false
  enabledTargets : ETarget := .All
  gLog : CLog := { name := "Memory" }

inductive Fault where
  | reentered
  | undefined
deriving DecidableEq

abbrev Steps := StateT Thread (Except Fault)

/-- A lock of a mutex that the thread holds already never returns. -/
def lock : Steps Unit := fun t => if t.held then .error .reentered else .ok ((), { t with held := true })

def unlock : Steps Unit := fun t => .ok ((), { t with held := false })

/-- A body that touches nothing but the tracker. -/
def onTracker {α : Type} (f : Tracker → Option (α × Tracker)) : Steps α := fun t =>
  match f t.tracker with
  | some (a, tracker) => .ok (a, { t with tracker })
  | none => .error .undefined

/-- A std::lock_guard on the tracking mutex around a body. -/
def guarded {α : Type} (body : Steps α) : Steps α := do
  lock
  let a ← body
  unlock
  return a

def trackAllocation (category : CategoryId) (bytes : UInt64) : Steps Unit :=
  guarded (onTracker fun t => t.trackAllocation category bytes)

def trackDeallocation (category : CategoryId) (bytes : UInt64) : Steps Unit :=
  guarded (onTracker fun t => t.trackDeallocation category bytes)

/-- The hooks that the operators call must not allocate, so they are left out. -/
def operatorNew (size : UInt64) : Steps Unit := do
  trackAllocation (← get).currentCategory size

def operatorDelete (category : CategoryId) (size : UInt64) : Steps Unit := trackDeallocation category size

def Traffic.run : Traffic → Steps Unit
  | .new size => operatorNew size
  | .delete category size => operatorDelete category size

namespace StdLib
variable (lib : StdLib)

def call (what : StdCall) : Steps Unit := (lib.traffic what).forM Traffic.run

/-- A string too long to be kept in place takes a byte more than its length. -/
def makeString (text : String) : Steps Unit :=
  if lib.inPlace < text.utf8ByteSize then operatorNew (UInt64.ofNat (text.utf8ByteSize + 1)) else pure ()

def freeString (text : String) : Steps Unit := do
  if lib.inPlace < text.utf8ByteSize then
    operatorDelete (← get).currentCategory (UInt64.ofNat (text.utf8ByteSize + 1))

end StdLib

/-- What goes to the terminal before the log system is up. -/
def preInit (level : ELogLevel) (message : String) : String :=
  if level = .Warning then "\u001b[33m[Pre-init] [WARNING] " ++ message ++ "\u001b[0m\n"
  else if level = .Error then "\u001b[31m[Pre-init] [ERROR] " ++ message ++ "\u001b[0m\n"
  else "[Pre-init] " ++ message ++ "\n"

/-- Where a message goes at once. -/
def writeOut (lib : StdLib) (msg : SLogMessage) : Steps Unit := do
  if msg.target &&& .Terminal ≠ .None then lib.call (.terminal msg)
  if msg.target &&& .File ≠ .None then lib.call (.file msg)

/-- CLog::Write, for what it allocates. It owns the message, and keeps it only for the listeners. -/
def write (lib : StdLib) (level : ELogLevel) (target : ETarget) (message : String) : Steps Unit := do
  let t ← get
  if t.initialized then
    let effective := target &&& t.enabledTargets
    if level &&& t.gLog.levelMask ≠ .None then
      let msg : SLogMessage :=
        { timestamp := lib.now.timestamp, level, target := effective, channelName := t.gLog.name, message
          formattedTimestamp := lib.now.formattedTimestamp }
      if effective &&& .Listeners ≠ .None then
        lib.makeString msg.formattedTimestamp
        lib.call .makeShared
        writeOut lib msg
        lib.call (.pushBack t.gLog.pendingDispatch.length)
        modify fun t => { t with gLog := { t.gLog with pendingDispatch := t.gLog.pendingDispatch ++ [msg] } }
      else
        lib.makeString msg.formattedTimestamp
        writeOut lib msg
        lib.freeString msg.formattedTimestamp
        lib.freeString message
    else lib.freeString message
  else if level &&& t.gLog.levelMask ≠ .None then
    lib.call (.stream (preInit level message))
    lib.freeString message
  else lib.freeString message

/-- Info with a text: the string is made before anything is asked of the log system. -/
def info (lib : StdLib) (message : String) : Steps Unit := do
  lib.makeString message
  write lib .Info .All message

/-- Info with a format, whose result is the text. -/
def infoFormat (lib : StdLib) (text : String) : Steps Unit := do
  lib.call (.format text)
  info lib text

def KiB : Nat := 1024

def MiB : Nat := 1024 * 1024

/-- A number of bytes in the unit that its size asks for. -/
def inUnit (lib : StdLib) (small : Bool) (bytes : UInt64) : String :=
  if small then lib.fixed bytes KiB ++ " KiB" else lib.fixed bytes MiB ++ " MiB"

/-- The line of a category that something was allocated in, its name padded to 20. -/
def printCategory (lib : StdLib) (name : String) (stat : SStats) : Steps Unit := do
  if 0 < stat.allocated then
    let sizeStr := inUnit lib (stat.getCurrentUsage.toNat < MiB) stat.getCurrentUsage
    lib.call (.format sizeStr)
    lib.makeString sizeStr
    infoFormat lib ("  " ++ name.rightpad 20 ++ ": " ++ sizeStr ++ " (" ++ toString stat.allocationCount ++ " allocs)")
    lib.freeString sizeStr

def printStats (lib : StdLib) : Steps Unit := guarded do
  info lib ""
  info lib "=== TgeCore Unified Memory Statistics ==="
  let tracker := (← get).tracker
  for (name, stat) in (tracker.categoryNames.toList.zip tracker.categoryStats.toList).take tracker.numCategories do
    printCategory lib name stat
  -- the totals are read again, as the lines before have changed nothing that is guarded
  let tracker := (← get).tracker
  let small : Bool := tracker.getCurrentUsage.toNat < MiB
  info lib ""
  info lib "Total:"
  infoFormat lib ("  Current Usage:   " ++ inUnit lib small tracker.getCurrentUsage)
  infoFormat lib ("  Total Allocated: " ++ inUnit lib small tracker.getTotalAllocated)
  infoFormat lib ("  Allocations:     " ++ toString tracker.getNumAllocations)
  info lib "========================================="
  info lib ""

/-- The functions of the tracker, and the global operators that call it. -/
inductive MemoryCall where
  | registerCategory (name : String)
  | getNumCategories
  | trackAllocation (category : CategoryId) (bytes : UInt64)
  | trackDeallocation (category : CategoryId) (bytes : UInt64)
  | getStats (category : CategoryId)
  | getTotalAllocated
  | getTotalDeallocated
  | getCurrentUsage
  | getNumAllocations
  | getCategoryName (category : CategoryId)
  | printStats
  | reset
  | operatorNew (size : UInt64)
  | operatorDelete (category : CategoryId) (size : UInt64)
deriving DecidableEq

/-- What a call does, its result left out. -/
def runCall (lib : StdLib) : MemoryCall → Steps Unit
  | .registerCategory name => discard (guarded (onTracker fun t => t.registerCategory name))
  | .getNumCategories => discard (guarded (onTracker fun t => some (t.getNumCategories, t)))
  | .trackAllocation category bytes => trackAllocation category bytes
  | .trackDeallocation category bytes => trackDeallocation category bytes
  | .getStats category => discard (guarded (onTracker fun t => t.getStats category))
  | .getTotalAllocated => discard (guarded (onTracker fun t => some (t.getTotalAllocated, t)))
  | .getTotalDeallocated => discard (guarded (onTracker fun t => some (t.getTotalDeallocated, t)))
  | .getCurrentUsage => discard (guarded (onTracker fun t => some (t.getCurrentUsage, t)))
  | .getNumAllocations => discard (guarded (onTracker fun t => some (t.getNumAllocations, t)))
  | .getCategoryName category => discard (guarded (onTracker fun t => t.getCategoryName category))
  | .printStats => printStats lib
  | .reset => guarded (onTracker fun t => some ((), t.reset))
  | .operatorNew size => operatorNew size
  | .operatorDelete category size => operatorDelete category size

end TgeCore.Memory
