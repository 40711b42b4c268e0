import TgeCore.Memory.Allocation
import TgeCore.Library.Extents

namespace TgeCore.Memory
open Library.ByteMemory Library.Extents

/-- CFreeListAllocator's members, with the bytes its blocks are kept in. A null
pointer is 0. -/
structure CFreeListAllocator where
  buffer : UInt64
  capacity : UInt64
  freeList : UInt64
  memory : Memory
  tracked : CTrackedAllocator := {}

/-- sizeof(SFreeBlock): a size, and the next pointer 8 bytes behind it. -/
def freeBlockSize : UInt64 := 16

def sizeOf (m : Memory) (block : UInt64) : UInt64 := load64 m block.toNat

def nextOf (m : Memory) (block : UInt64) : UInt64 := load64 m (block.toNat + 8)

def setSize (m : Memory) (block size : UInt64) : Memory := store64 m block.toNat size

def setNext (m : Memory) (block next : UInt64) : Memory := store64 m (block.toNat + 8) next

/-- The constructor, given what malloc returned for a capacity above zero. -/
def CFreeListAllocator.create (capacity buffer : UInt64) (memory : Memory) : CFreeListAllocator :=
  if capacity > 0 then
    if buffer ≠ 0 then
      { buffer, capacity, freeList := buffer, memory := setNext (setSize memory buffer capacity) buffer 0 }
    else { buffer := 0, capacity, freeList := 0, memory }
  else { buffer := 0, capacity, freeList := 0, memory }

/-- The first-fit loop: the block found and the one before it, or nothing at the
end of the list. Out of fuel is no result at all. -/
def findFit (m : Memory) (size alignment : UInt64) :
    Nat → UInt64 → UInt64 → Option (Option (UInt64 × UInt64))
  | 0, _, _ => none
  | fuel + 1, prevBlock, currentBlock =>
    if currentBlock = 0 then some none
    else if sizeOf m currentBlock ≥ (placement currentBlock size alignment).totalSize then
      some (some (prevBlock, currentBlock))
    else findFit m size alignment fuel currentBlock (nextOf m currentBlock)

/-- Making a block, or the head of the list, point to another block. -/
def CFreeListAllocator.link (s : CFreeListAllocator) (prevBlock block : UInt64) : CFreeListAllocator :=
  if prevBlock ≠ 0 then { s with memory := setNext s.memory prevBlock block }
  else { s with freeList := block }

/-- Splitting the block found, or taking it out of the list where too little is left. -/
def CFreeListAllocator.unlist (s : CFreeListAllocator) (prevBlock currentBlock totalSize : UInt64) :
    CFreeListAllocator :=
  let remainingSize := sizeOf s.memory currentBlock - totalSize
  if remainingSize > freeBlockSize then
    let newBlock := currentBlock + totalSize
    let sized := setSize s.memory newBlock remainingSize
    { s with memory := setNext sized newBlock (nextOf sized currentBlock) }.link prevBlock newBlock
  else s.link prevBlock (nextOf s.memory currentBlock)

/-- Allocate once it has found a block. -/
def CFreeListAllocator.take (s : CFreeListAllocator) (prevBlock currentBlock size alignment : UInt64) :
    CFreeListAllocator :=
  let place := placement currentBlock size alignment
  let listed := s.unlist prevBlock currentBlock place.totalSize
  { listed with
    memory := storeHeader listed.memory place.alignedAddr size place.padding
    tracked := listed.tracked.recordAlloc size }

/-- No list inside of the buffer is longer than the buffer has bytes. -/
def CFreeListAllocator.fuel (s : CFreeListAllocator) : Nat := s.capacity.toNat + 1

def CFreeListAllocator.allocate (s : CFreeListAllocator) (size alignment : UInt64) :
    Option (CFreeListAllocator × UInt64) :=
  if size > 0 ∧ s.freeList ≠ 0 then
    match findFit s.memory size alignment s.fuel 0 s.freeList with
    | none => none
    | some none => some (s, 0)
    | some (some (prevBlock, currentBlock)) =>
      some (s.take prevBlock currentBlock size alignment,
        (placement currentBlock size alignment).alignedAddr)
  else some (s, 0)

/-- The insertion loop: the last block below the address and the one after it. -/
def findPlace (m : Memory) (blockAddr : UInt64) : Nat → UInt64 → UInt64 → Option (UInt64 × UInt64)
  | 0, _, _ => none
  | fuel + 1, prevBlock, currentBlock =>
    if currentBlock ≠ 0 ∧ currentBlock < blockAddr then
      findPlace m blockAddr fuel currentBlock (nextOf m currentBlock)
    else some (prevBlock, currentBlock)

/-- A block takes in the one after it. -/
def mergeNext (m : Memory) (currentBlock : UInt64) : Memory :=
  let grown := setSize m currentBlock (sizeOf m currentBlock + sizeOf m (nextOf m currentBlock))
  setNext grown currentBlock (nextOf grown (nextOf grown currentBlock))

/-- The loop of CoalesceFreeBlocks. A merge stays at the block it has grown. -/
def coalesceFreeBlocks (m : Memory) : Nat → UInt64 → Option Memory
  | 0, _ => none
  | fuel + 1, currentBlock =>
    if currentBlock ≠ 0 ∧ nextOf m currentBlock ≠ 0 then
      if currentBlock + sizeOf m currentBlock = nextOf m currentBlock then
        coalesceFreeBlocks (mergeNext m currentBlock) fuel currentBlock
      else coalesceFreeBlocks m fuel (nextOf m currentBlock)
    else some m

/-- Making a free block and putting it into the list, which is sorted by address. -/
def CFreeListAllocator.insert (s : CFreeListAllocator) (blockAddr totalSize : UInt64) :
    Option CFreeListAllocator :=
  let made := setNext (setSize s.memory blockAddr totalSize) blockAddr 0
  match findPlace made blockAddr s.fuel 0 s.freeList with
  | none => none
  | some (prevBlock, currentBlock) =>
    let listed := { s with memory := made }.link prevBlock blockAddr
    some { listed with memory := setNext listed.memory blockAddr currentBlock }

def CFreeListAllocator.deallocate (s : CFreeListAllocator) (ptr : UInt64) : Option CFreeListAllocator :=
  if ptr ≠ 0 ∧ s.buffer ≠ 0 then
    let totalSize := headerSize + headerPaddingField s.memory ptr + headerSizeField s.memory ptr
    let blockAddr := ptr - headerSize - headerPaddingField s.memory ptr
    match s.insert blockAddr totalSize with
    | none => none
    | some listed =>
      -- The header is read once more, and the new block's fields may lie on top of it.
      let tracked := listed.tracked.recordDealloc (headerSizeField listed.memory ptr)
      match coalesceFreeBlocks listed.memory s.fuel listed.freeList with
      | none => none
      | some memory => some { listed with memory, tracked }
  else some s

/-- The free list as it can be read from memory, null-terminated or not. -/
def readBlocks (m : Memory) : Nat → UInt64 → List Extent
  | 0, _ => []
  | fuel + 1, block =>
    if block = 0 then []
    else ⟨block.toNat, (sizeOf m block).toNat⟩ :: readBlocks m fuel (nextOf m block)

def CFreeListAllocator.freeBlocks (s : CFreeListAllocator) : List Extent :=
  readBlocks s.memory s.fuel s.freeList

end TgeCore.Memory
