import TgeCore.Memory.Allocation
import TgeCore.Library.Machine
import TgeCore.Library.Chain
import Mathlib.Algebra.Group.Nat.Defs
import Mathlib.Data.List.Nodup

namespace TgeCore.Memory
open Library Library.ByteMemory

/-- CPoolAllocator's members, with the bytes its free nodes are kept in. A null
pointer is 0. -/
structure CPoolAllocator where
  buffer : UInt64 := 0
  objectSize : UInt64
  objectCount : UInt64
  freeList : UInt64 := 0
  memory : Memory
  tracked : CTrackedAllocator := {}

/-- sizeof(SFreeNode): the pointer to the next one. -/
def freeNodeSize : UInt64 := 8

def nodeNext (m : Memory) (node : UInt64) : UInt64 := load64 m node.toNat

def setNodeNext (m : Memory) (node next : UInt64) : Memory := store64 m node.toNat next

/-- The loop of the constructor that links all objects together, with the number
of rounds that are left. -/
def linkObjects (bufferAddr objectSize objectCount : UInt64) : Nat → UInt64 → Memory → Memory
  | 0, _, m => m
  | rounds + 1, i, m =>
    let node := bufferAddr + i * objectSize
    let next := if i < objectCount - 1 then bufferAddr + (i + 1) * objectSize else 0
    linkObjects bufferAddr objectSize objectCount rounds (i + 1) (setNodeNext m node next)

def adjustedSize (objectSize : UInt64) : UInt64 :=
  if objectSize < freeNodeSize then freeNodeSize else objectSize

/-- The constructor, given what malloc returned for a count above zero. -/
def CPoolAllocator.create (objectSize objectCount buffer : UInt64) (memory : Memory) :
    CPoolAllocator :=
  let size := adjustedSize objectSize
  if objectCount > 0 then
    if buffer ≠ 0 then
      { buffer, objectSize := size, objectCount, freeList := buffer,
        memory := linkObjects buffer size objectCount objectCount.toNat 0 memory }
    else { objectSize := size, objectCount, memory }
  else { objectSize := size, objectCount, memory }

/-- The alignment is not looked at. -/
def CPoolAllocator.allocate (s : CPoolAllocator) (size _alignment : UInt64) :
    CPoolAllocator × UInt64 :=
  if size ≤ s.objectSize ∧ s.freeList ≠ 0 then
    ({ s with
      freeList := nodeNext s.memory s.freeList
      tracked := s.tracked.recordAlloc s.objectSize }, s.freeList)
  else (s, 0)

def CPoolAllocator.deallocate (s : CPoolAllocator) (ptr : UInt64) : CPoolAllocator :=
  if ptr ≠ 0 then
    { s with
      memory := setNodeNext s.memory ptr s.freeList
      freeList := ptr
      tracked := s.tracked.recordDealloc s.objectSize }
  else s

/-- The loop of GetAvailableObjects. Out of fuel is no result at all. -/
def countNodes (m : Memory) : Nat → UInt64 → UInt64 → Option UInt64
  | 0, _, _ => none
  | fuel + 1, count, node =>
    if node ≠ 0 then countNodes m fuel (count + 1) (nodeNext m node) else some count

def CPoolAllocator.getAvailableObjects (s : CPoolAllocator) : Option UInt64 :=
  countNodes s.memory (s.objectCount.toNat + 1) 0 s.freeList

/-- A pool in use, with the blocks that are handed out. -/
structure Pool where
  allocator : CPoolAllocator
  live : List UInt64 := []

inductive PoolOp where
  | allocate (size alignment : UInt64)
  | deallocate (ptr : UInt64)
  | write (address : Nat) (byte : UInt8)
deriving DecidableEq

/-- The bytes of a block. -/
def CPoolAllocator.InBlock (s : CPoolAllocator) (ptr : UInt64) (address : Nat) : Prop :=
  ptr.toNat ≤ address ∧ address < ptr.toNat + s.objectSize.toNat

instance (s : CPoolAllocator) (ptr : UInt64) (address : Nat) : Decidable (s.InBlock ptr address) :=
  inferInstanceAs (Decidable (_ ∧ _))

/-- One call, and the pointer it returns: any Allocate, a Deallocate of a live
block, or a byte written into a live block. -/
def Pool.step (p : Pool) : PoolOp → Option (Pool × UInt64)
  | .allocate size alignment =>
    let result := p.allocator.allocate size alignment
    if result.2 = 0 then some (⟨result.1, p.live⟩, 0)
    else some (⟨result.1, result.2 :: p.live⟩, result.2)
  | .deallocate ptr =>
    if ptr ∈ p.live then some (⟨p.allocator.deallocate ptr, p.live.erase ptr⟩, 0) else none
  | .write address byte =>
    if ∃ ptr ∈ p.live, p.allocator.InBlock ptr address then
      some ({ p with allocator := { p.allocator with
        memory := Function.update p.allocator.memory address byte } }, 0)
    else none

def pools : Machine Pool PoolOp UInt64 := ⟨Pool.step⟩

@[simp] theorem pools_step (p : Pool) (op : PoolOp) : pools.step p op = p.step op := rfl

def Pool.start (objectSize objectCount buffer : UInt64) (memory : Memory) : Pool :=
  { allocator := .create objectSize objectCount buffer memory }

/-- A place of the grid that the buffer is cut into. -/
def CPoolAllocator.block (s : CPoolAllocator) (i : Nat) : UInt64 :=
  s.buffer + UInt64.ofNat i * s.objectSize

/-- How many objects the buffer holds: none without a buffer. -/
def CPoolAllocator.blockCount (s : CPoolAllocator) : Nat :=
  if s.buffer = 0 then 0 else s.objectCount.toNat

def CPoolAllocator.blocks (s : CPoolAllocator) : List UInt64 :=
  (List.range s.blockCount).map s.block

/-- A buffer of the size asked for, at an address where it fits. -/
structure CPoolAllocator.Fits (s : CPoolAllocator) : Prop where
  node : 8 ≤ s.objectSize.toNat
  product : s.objectSize.toNat * s.objectCount.toNat < 2 ^ 64
  room : s.buffer ≠ 0 → s.buffer.toNat + s.objectSize.toNat * s.objectCount.toNat ≤ 2 ^ 64

/-- The invariant of a pool, with its free list spelled out. -/
structure Pool.Sound (new : CPoolAllocator) (p : Pool) (free : List UInt64) : Prop where
  buffer : p.allocator.buffer = new.buffer
  objectSize : p.allocator.objectSize = new.objectSize
  objectCount : p.allocator.objectCount = new.objectCount
  listed : Chain (nodeNext p.allocator.memory) 0 p.allocator.freeList free
  shared : (free ++ p.live).Perm new.blocks
  usage : p.allocator.tracked.currentUsage.toNat = p.live.length * new.objectSize.toNat

/-- What a pool promises of its blocks, with `new` as it was built. -/
structure Pool.Exact (new : CPoolAllocator) (p : Pool) : Prop where
  fresh : ∀ size alignment, (p.allocator.allocate size alignment).2 ∉ p.live
  placed : ∀ ptr, (ptr ∈ p.live ∨ ptr ≠ 0 ∧ ∃ size alignment,
      (p.allocator.allocate size alignment).2 = ptr) →
    new.buffer ≠ 0 ∧ (∃ i, ptr.toNat = new.buffer.toNat + i * new.objectSize.toNat) ∧
      ptr.toNat + new.objectSize.toNat ≤
        new.buffer.toNat + new.objectSize.toNat * new.objectCount.toNat
  apart : p.live.Pairwise fun ptr other => ∀ address,
    ¬ (new.InBlock ptr address ∧ new.InBlock other address)
  acyclic : ∃ free, Chain (nodeNext p.allocator.memory) 0 p.allocator.freeList free ∧ free.Nodup
  available : ∃ count, p.allocator.getAvailableObjects = some count ∧
    count.toNat + p.live.length = new.blockCount
  usage : p.allocator.tracked.currentUsage.toNat = p.live.length * new.objectSize.toNat
  null : ∀ size alignment, (p.allocator.allocate size alignment).2 = 0 ↔
    new.objectSize < size ∨ p.allocator.getAvailableObjects = some 0

variable {s new : CPoolAllocator} {p p' : Pool} {free : List UInt64} {op : PoolOp} {o ptr : UInt64}

theorem CPoolAllocator.blockCount_le (s : CPoolAllocator) : s.blockCount ≤ s.objectCount.toNat := by
  unfold CPoolAllocator.blockCount
  split
  · exact Nat.zero_le _
  · exact Nat.le_refl _

section Grid
variable (hf : s.Fits)
include hf

theorem CPoolAllocator.Fits.block_toNat {i : Nat} (hi : i < s.blockCount) :
    (s.block i).toNat = s.buffer.toNat + i * s.objectSize.toNat ∧
      (s.block i).toNat + s.objectSize.toNat ≤
        s.buffer.toNat + s.objectSize.toNat * s.objectCount.toNat ∧ s.buffer ≠ 0 := by
  have hbuffer : s.buffer ≠ 0 := by
    intro hzero
    simp [CPoolAllocator.blockCount, hzero] at hi
  rw [CPoolAllocator.blockCount, if_neg hbuffer] at hi
  have hroom := hf.room hbuffer
  have hnode := hf.node
  have hcount := s.objectCount.toNat_lt
  have hend : (i + 1) * s.objectSize.toNat ≤ s.objectSize.toNat * s.objectCount.toNat := by
    rw [Nat.mul_comm]
    exact Nat.mul_le_mul_left _ hi
  rw [Nat.add_mul, Nat.one_mul] at hend
  have hindex : (UInt64.ofNat i).toNat = i := by
    rw [UInt64.toNat_ofNat']
    exact Nat.mod_eq_of_lt (by omega)
  have haddr : (s.block i).toNat = s.buffer.toNat + i * s.objectSize.toNat := by
    rw [CPoolAllocator.block, UInt64.toNat_add, UInt64.toNat_mul, hindex]
    rw [Nat.mod_eq_of_lt (a := i * _) (by omega), Nat.mod_eq_of_lt (by omega)]
  exact ⟨haddr, by omega, hbuffer⟩

theorem CPoolAllocator.Fits.block_ne_zero {i : Nat} (hi : i < s.blockCount) : s.block i ≠ 0 := by
  obtain ⟨haddr, _, hbuffer⟩ := hf.block_toNat hi
  intro hzero
  rw [hzero, UInt64.toNat_zero] at haddr
  exact hbuffer (UInt64.toNat_inj.mp (by rw [UInt64.toNat_zero]; omega))

/-- Two places of the grid have no byte in common. -/
theorem CPoolAllocator.Fits.block_apart {i j : Nat} (hi : i < s.blockCount) (hj : j < s.blockCount)
    (hij : i < j) : (s.block i).toNat + s.objectSize.toNat ≤ (s.block j).toNat := by
  rw [(hf.block_toNat hi).1, (hf.block_toNat hj).1]
  have hstep : (i + 1) * s.objectSize.toNat ≤ j * s.objectSize.toNat := Nat.mul_le_mul_right _ hij
  rw [Nat.add_mul, Nat.one_mul] at hstep
  omega

theorem CPoolAllocator.Fits.blocks_nodup : s.blocks.Nodup := by
  refine List.Nodup.map_on (fun i hi j hj heq => ?_) List.nodup_range
  have hnode := hf.node
  have hi := List.mem_range.mp hi
  have hj := List.mem_range.mp hj
  rcases Nat.lt_trichotomy i j with hlt | rfl | hlt
  · have := hf.block_apart hi hj hlt
    rw [heq] at this
    omega
  · rfl
  · have := hf.block_apart hj hi hlt
    rw [heq] at this
    omega

/-- A byte belongs to one block only. -/
theorem CPoolAllocator.Fits.block_unique {other : UInt64} (hptr : ptr ∈ s.blocks)
    (hother : other ∈ s.blocks) {address : Nat} (h : s.InBlock ptr address)
    (h' : s.InBlock other address) : ptr = other := by
  obtain ⟨i, hi, rfl⟩ := List.mem_map.mp hptr
  obtain ⟨j, hj, rfl⟩ := List.mem_map.mp hother
  have hi := List.mem_range.mp hi
  have hj := List.mem_range.mp hj
  simp only [CPoolAllocator.InBlock] at h h'
  rcases Nat.lt_trichotomy i j with hlt | rfl | hlt
  · have := hf.block_apart hi hj hlt
    omega
  · rfl
  · have := hf.block_apart hj hi hlt
    omega

/-- The bytes of a free node are bytes of its block. -/
theorem CPoolAllocator.Fits.node_inBlock {address : Nat} (hl : ptr.toNat ≤ address)
    (hu : address < ptr.toNat + 8) : s.InBlock ptr address :=
  ⟨hl, by have := hf.node; omega⟩

/-- A change inside of one block is not seen in the links of others. -/
theorem CPoolAllocator.Fits.chain_frame {m m' : Memory} {first : UInt64}
    (hc : Chain (nodeNext m) 0 first free) (hfree : ∀ node ∈ free, node ∈ s.blocks)
    (hptr : ptr ∈ s.blocks) (hout : ptr ∉ free)
    (hm : ∀ address, ¬ s.InBlock ptr address → m' address = m address) :
    Chain (nodeNext m') 0 first free := by
  refine hc.congr fun node hnode => load64_congr fun address hl hu => (hm address fun hin => ?_).symm
  have hsame := hf.block_unique hptr (hfree node hnode) hin (hf.node_inBlock hl hu)
  exact hout (hsame ▸ hnode)

end Grid

section Created
variable {objectSize objectCount buffer : UInt64} {memory m : Memory}

theorem adjustedSize_ge (objectSize : UInt64) : 8 ≤ (adjustedSize objectSize).toNat := by
  unfold adjustedSize
  split
  · exact Nat.le_refl 8
  · rename_i hlarge
    exact UInt64.le_iff_toNat_le.mp (UInt64.not_lt.mp hlarge)

theorem create_fits (hproduct : (adjustedSize objectSize).toNat * objectCount.toNat < 2 ^ 64)
    (hroom : buffer ≠ 0 →
      buffer.toNat + (adjustedSize objectSize).toNat * objectCount.toNat ≤ 2 ^ 64) :
    (CPoolAllocator.create objectSize objectCount buffer memory).Fits := by
  unfold CPoolAllocator.create
  split
  · split
    · exact ⟨adjustedSize_ge objectSize, hproduct, hroom⟩
    · exact ⟨adjustedSize_ge objectSize, hproduct, by simp⟩
  · exact ⟨adjustedSize_ge objectSize, hproduct, by simp⟩

/-- A round links an object to the next one, or to none if it is the last. -/
theorem linkObjects_round (hbuffer : s.buffer ≠ 0) {rounds i : Nat} (hi : i + (rounds + 1) = s.objectCount.toNat) :
    linkObjects s.buffer s.objectSize s.objectCount (rounds + 1) (UInt64.ofNat i) m =
      linkObjects s.buffer s.objectSize s.objectCount rounds (UInt64.ofNat (i + 1))
        (setNodeNext m (s.block i) (if i + 1 < s.blockCount then s.block (i + 1) else 0)) := by
  have hblocks : s.blockCount = s.objectCount.toNat := if_neg hbuffer
  have hcount := s.objectCount.toNat_lt
  have hindex : (UInt64.ofNat i).toNat = i := by
    rw [UInt64.toNat_ofNat']
    exact Nat.mod_eq_of_lt (by omega)
  have htest : UInt64.ofNat i < s.objectCount - 1 ↔ i + 1 < s.blockCount := by
    have hone : (1 : UInt64) ≤ s.objectCount := UInt64.le_iff_toNat_le.mpr (by
      rw [UInt64.toNat_one]
      omega)
    rw [UInt64.lt_iff_toNat_lt, hindex, UInt64.toNat_sub_of_le _ _ hone, UInt64.toNat_one, hblocks]
    omega
  simp only [linkObjects, htest, CPoolAllocator.block, UInt64.ofNat_add]
  rfl

/-- The loop links each object from its first one on to the object after it, and
writes nothing but the nodes of these. -/
theorem linkObjects_spec (hf : s.Fits) (hbuffer : s.buffer ≠ 0) {rounds i : Nat}
    (hi : i + rounds = s.objectCount.toNat) :
    (∀ j, i ≤ j → j < s.blockCount →
      nodeNext (linkObjects s.buffer s.objectSize s.objectCount rounds (UInt64.ofNat i) m) (s.block j) =
        if j + 1 < s.blockCount then s.block (j + 1) else 0) ∧
    ∀ address, (∀ j, i ≤ j → j < s.blockCount → ¬ s.InBlock (s.block j) address) →
      linkObjects s.buffer s.objectSize s.objectCount rounds (UInt64.ofNat i) m address = m address := by
  have hblocks : s.blockCount = s.objectCount.toNat := if_neg hbuffer
  induction rounds generalizing i m with
  | zero => exact ⟨fun j hij hj => by omega, fun _ _ => rfl⟩
  | succ rounds ih =>
    obtain ⟨hlinks, hframe⟩ := ih (i := i + 1)
      (m := setNodeNext m (s.block i) (if i + 1 < s.blockCount then s.block (i + 1) else 0)) (by omega)
    rw [linkObjects_round hbuffer hi]
    have hmine : i < s.blockCount := by omega
    generalize hmade : setNodeNext m (s.block i)
      (if i + 1 < s.blockCount then s.block (i + 1) else 0) = made at *
    generalize linkObjects s.buffer s.objectSize s.objectCount rounds (UInt64.ofNat (i + 1)) made = all
      at *
    constructor
    · intro j hij hj
      rcases Nat.eq_or_lt_of_le hij with rfl | hlt
      · -- The rounds to come write into the blocks after this one.
        have hkept : nodeNext all (s.block i) = nodeNext made (s.block i) := by
          refine load64_congr fun address hl hu => hframe address fun k hik hk hin => ?_
          have := hf.block_apart hmine hk hik
          have := hf.node
          have := hin.1
          omega
        rw [hkept, ← hmade]
        exact load64_store64 ..
      · exact hlinks j hlt hj
    · intro address hout
      rw [hframe address fun j hij hj => hout j (by omega) hj, ← hmade]
      refine store64_frame ?_
      by_contra hin
      exact hout i (Nat.le_refl i) hmine (hf.node_inBlock (by omega) (by omega))

/-- There is a buffer with linked objects in it, or none and no free node. -/
theorem create_cases {new : CPoolAllocator}
    (hnew : CPoolAllocator.create objectSize objectCount buffer memory = new) :
    new.tracked = {} ∧ ((new.buffer = 0 ∧ new.freeList = 0) ∨
      (new.buffer ≠ 0 ∧ new.objectCount ≠ 0 ∧ new.freeList = new.buffer ∧
        new.memory = linkObjects new.buffer new.objectSize new.objectCount new.objectCount.toNat 0
          memory)) := by
  unfold CPoolAllocator.create at hnew
  split at hnew
  · rename_i hcount
    split at hnew
    · rename_i hbuffer
      subst hnew
      exact ⟨rfl, .inr ⟨hbuffer, UInt64.pos_iff_ne_zero.mp hcount, rfl, rfl⟩⟩
    · subst hnew
      exact ⟨rfl, .inl ⟨rfl, rfl⟩⟩
  · subst hnew
    exact ⟨rfl, .inl ⟨rfl, rfl⟩⟩

theorem create_sound {new : CPoolAllocator}
    (hnew : CPoolAllocator.create objectSize objectCount buffer memory = new) (hf : new.Fits) :
    Pool.Sound new ⟨new, []⟩ new.blocks := by
  obtain ⟨htracked, hcases⟩ := create_cases hnew
  have hlisted : Chain (nodeNext new.memory) 0 new.freeList new.blocks := by
    rcases hcases with ⟨hbuffer, hnone⟩ | ⟨hbuffer, hcount, hfirst, hmemory⟩
    · have hempty : new.blockCount = 0 := if_pos hbuffer
      rw [CPoolAllocator.blocks, hempty]
      exact hnone
    · have hblocks : new.blockCount = new.objectCount.toNat := if_neg hbuffer
      refine Chain.of_links (fun j hj => hf.block_ne_zero hj) (fun j hj => ?_) (fun _ => ?_) fun hz => ?_
      · rw [hmemory]
        exact (linkObjects_spec hf hbuffer (i := 0) (Nat.zero_add _)).1 j (Nat.zero_le j) hj
      · rw [hfirst, CPoolAllocator.block]
        simp
      · exact absurd (UInt64.toNat_inj.mp (hblocks ▸ hz)) hcount
  exact ⟨rfl, rfl, rfl, hlisted, by simp, by simp [htracked]⟩

end Created

section Run
variable (hf : new.Fits)

theorem Pool.Sound.length (hs : p.Sound new free) : free.length + p.live.length = new.blockCount := by
  have hlength := hs.shared.length_eq
  rwa [List.length_append, CPoolAllocator.blocks, List.length_map, List.length_range] at hlength

theorem Pool.Sound.mem_free (hs : p.Sound new free) {node : UInt64} (h : node ∈ free) :
    node ∈ new.blocks :=
  hs.shared.mem_iff.mp (List.mem_append_left _ h)

theorem Pool.Sound.mem_live (hs : p.Sound new free) (h : ptr ∈ p.live) : ptr ∈ new.blocks :=
  hs.shared.mem_iff.mp (List.mem_append_right _ h)

/-- What Allocate returns is the first free node, if there is one and it is large enough. -/
theorem Pool.Sound.allocate_cases (hs : p.Sound new free) (size alignment : UInt64) :
    (p.allocator.allocate size alignment = (p.allocator, 0) ∧ (new.objectSize < size ∨ free = [])) ∨
    ∃ node rest, free = node :: rest ∧ node ≠ 0 ∧ ¬ new.objectSize < size ∧
      p.allocator.allocate size alignment = ({ p.allocator with
        freeList := nodeNext p.allocator.memory node
        tracked := p.allocator.tracked.recordAlloc new.objectSize }, node) ∧
      Chain (nodeNext p.allocator.memory) 0 (nodeNext p.allocator.memory node) rest := by
  have hlisted := hs.listed
  have hsize : size ≤ p.allocator.objectSize ↔ ¬ new.objectSize < size := by
    rw [hs.objectSize, UInt64.not_lt]
  cases free with
  | nil =>
    have hnone : p.allocator.freeList = 0 := hlisted
    exact .inl ⟨by simp [CPoolAllocator.allocate, hnone], .inr rfl⟩
  | cons node rest =>
    obtain ⟨hfirst, hnode, hrest⟩ := hlisted
    by_cases hlarge : new.objectSize < size
    · exact .inl ⟨by simp [CPoolAllocator.allocate, hsize, hlarge], .inl hlarge⟩
    · refine .inr ⟨node, rest, rfl, hnode, hlarge, ?_, hrest⟩
      simp [CPoolAllocator.allocate, hlarge, hfirst, hnode, hs.objectSize]

include hf in
/-- The live blocks take no more bytes than the buffer has. -/
theorem Pool.Sound.live_bytes (hs : p.Sound new free) :
    (free.length + p.live.length) * new.objectSize.toNat < 2 ^ 64 := by
  rw [hs.length, Nat.mul_comm]
  exact Nat.lt_of_le_of_lt (Nat.mul_le_mul_left _ new.blockCount_le) hf.product

include hf in
theorem Pool.Sound.allocate (hs : p.Sound new free) {size alignment : UInt64}
    (hst : p.step (.allocate size alignment) = some (p', o)) : ∃ free', p'.Sound new free' := by
  simp only [Pool.step] at hst
  rcases hs.allocate_cases size alignment with ⟨hrun, _⟩ | ⟨node, rest, rfl, hnode, _, hrun, hrest⟩
  · simp only [hrun, if_true, Option.some.injEq, Prod.mk.injEq] at hst
    obtain ⟨rfl, _⟩ := hst
    exact ⟨free, hs⟩
  · simp only [hrun, hnode, if_false, Option.some.injEq, Prod.mk.injEq] at hst
    obtain ⟨rfl, _⟩ := hst
    refine ⟨rest, hs.buffer, hs.objectSize, hs.objectCount, hrest, List.perm_middle.trans hs.shared, ?_⟩
    have hbytes := hs.live_bytes hf
    simp only [List.length_cons] at hbytes ⊢
    have hmore : (p.live.length + 1) * new.objectSize.toNat ≤
        (rest.length + 1 + p.live.length) * new.objectSize.toNat := Nat.mul_le_mul_right _ (by omega)
    simp only [CTrackedAllocator.recordAlloc, UInt64.toNat_add, hs.usage]
    rw [Nat.add_mul, Nat.one_mul] at hmore ⊢
    exact Nat.mod_eq_of_lt (by omega)

include hf in
theorem Pool.Sound.disjoint (hs : p.Sound new free) (h : ptr ∈ p.live) : ptr ∉ free := by
  have hnodup := hs.shared.nodup_iff.mpr hf.blocks_nodup
  exact fun hfree => (List.nodup_append.mp hnodup).2.2 ptr hfree ptr h rfl

include hf in
theorem Pool.Sound.deallocate (hs : p.Sound new free)
    (hst : p.step (.deallocate ptr) = some (p', o)) : ∃ free', p'.Sound new free' := by
  simp only [Pool.step] at hst
  split at hst
  · rename_i hlive
    simp only [Option.some.injEq, Prod.mk.injEq] at hst
    obtain ⟨rfl, _⟩ := hst
    have hblock := hs.mem_live hlive
    have hptr : ptr ≠ 0 := by
      obtain ⟨i, hi, rfl⟩ := List.mem_map.mp hblock
      exact hf.block_ne_zero (List.mem_range.mp hi)
    have hlisted : Chain (nodeNext (setNodeNext p.allocator.memory ptr p.allocator.freeList)) 0
        p.allocator.freeList free := by
      refine hf.chain_frame hs.listed (fun _ => hs.mem_free) hblock (hs.disjoint hf hlive) ?_
      intro address hout
      refine store64_frame ?_
      by_contra hin
      exact hout (hf.node_inBlock (by omega) (by omega))
    have hshared : (ptr :: free ++ p.live.erase ptr).Perm new.blocks :=
      (List.perm_middle.symm.trans ((List.perm_cons_erase hlive).symm.append_left free)).trans hs.shared
    have hlength := List.length_erase_of_mem hlive
    have hsome := List.length_pos_of_mem hlive
    refine ⟨ptr :: free, ?_⟩
    simp only [CPoolAllocator.deallocate, hptr, ne_eq, not_false_iff, if_true]
    refine ⟨hs.buffer, hs.objectSize, hs.objectCount, ⟨rfl, hptr, ?_⟩, hshared, ?_⟩
    · rw [nodeNext, setNodeNext, load64_store64]
      exact hlisted
    · have hbytes := hs.live_bytes hf
      obtain ⟨others, hothers⟩ : ∃ others, p.live.length = others + 1 := ⟨_, (Nat.sub_add_cancel hsome).symm⟩
      have husage := hs.usage
      rw [hothers, Nat.add_mul, Nat.one_mul] at husage
      simp only [hlength, hothers, Nat.add_sub_cancel, CTrackedAllocator.recordDealloc, hs.objectSize]
      rw [UInt64.toNat_sub_of_le _ _ (UInt64.le_iff_toNat_le.mpr (by omega))]
      omega
  · cases hst

include hf in
theorem Pool.Sound.write (hs : p.Sound new free) {address : Nat} {byte : UInt8}
    (hst : p.step (.write address byte) = some (p', o)) : ∃ free', p'.Sound new free' := by
  simp only [Pool.step] at hst
  split at hst
  · rename_i hin
    obtain ⟨ptr, hlive, hin⟩ := hin
    simp only [Option.some.injEq, Prod.mk.injEq] at hst
    obtain ⟨rfl, _⟩ := hst
    refine ⟨free, hs.buffer, hs.objectSize, hs.objectCount, ?_, hs.shared, hs.usage⟩
    refine hf.chain_frame hs.listed (fun _ => hs.mem_free) (hs.mem_live hlive) (hs.disjoint hf hlive) ?_
    intro i hout
    refine Function.update_of_ne (fun heq => hout ?_) _ _
    rw [heq, CPoolAllocator.InBlock, ← hs.objectSize]
    exact hin
  · cases hst

include hf in
theorem Pool.Sound.step (hs : p.Sound new free) (hst : p.step op = some (p', o)) :
    ∃ free', p'.Sound new free' := by
  cases op with
  | allocate size alignment => exact hs.allocate hf hst
  | deallocate ptr => exact hs.deallocate hf hst
  | write address byte => exact hs.write hf hst

/-- The loop of GetAvailableObjects counts the free nodes. -/
theorem countNodes_eq {m : Memory} {first : UInt64} (hc : Chain (nodeNext m) 0 first free) {fuel : Nat}
    (hfuel : free.length < fuel) (count : UInt64) :
    countNodes m fuel count first = some (count + UInt64.ofNat free.length) := by
  induction free generalizing first fuel count with
  | nil =>
    obtain ⟨fuel, rfl⟩ := Nat.exists_eq_add_of_lt hfuel
    have hnone : first = 0 := hc
    simp [countNodes, hnone]
  | cons node rest ih =>
    obtain ⟨fuel, rfl⟩ : ∃ f, fuel = f + 1 := ⟨fuel - 1, by simp at hfuel; omega⟩
    obtain ⟨rfl, hnode, hc⟩ := hc
    rw [countNodes, if_pos hnode, ih hc (by simpa using hfuel), List.length_cons, UInt64.ofNat_add,
      UInt64.add_assoc, UInt64.add_comm 1]
    rfl

theorem Pool.Sound.available (hs : p.Sound new free) :
    p.allocator.getAvailableObjects = some (UInt64.ofNat free.length) ∧
      (UInt64.ofNat free.length).toNat = free.length := by
  have hlength := hs.length
  have hcount := new.objectCount.toNat_lt
  have hfew := new.blockCount_le
  refine ⟨?_, ?_⟩
  · rw [CPoolAllocator.getAvailableObjects, hs.objectCount, countNodes_eq hs.listed (by omega), UInt64.zero_add]
  · rw [UInt64.toNat_ofNat']
    exact Nat.mod_eq_of_lt (by omega)

include hf in
theorem Pool.Sound.exact (hs : p.Sound new free) : p.Exact new := by
  have hnodup := hs.shared.nodup_iff.mpr hf.blocks_nodup
  obtain ⟨hfreeNodup, hliveNodup, hdisjoint⟩ := List.nodup_append.mp hnodup
  obtain ⟨hcount, hexact⟩ := hs.available
  have hblock : ∀ ptr ∈ new.blocks, ptr ≠ 0 ∧ new.buffer ≠ 0 ∧
      (∃ i, ptr.toNat = new.buffer.toNat + i * new.objectSize.toNat) ∧
      ptr.toNat + new.objectSize.toNat ≤
        new.buffer.toNat + new.objectSize.toNat * new.objectCount.toNat := by
    intro ptr hptr
    obtain ⟨i, hi, rfl⟩ := List.mem_map.mp hptr
    have hi := List.mem_range.mp hi
    obtain ⟨haddr, hstop, hbuffer⟩ := hf.block_toNat hi
    exact ⟨hf.block_ne_zero hi, hbuffer, ⟨i, haddr⟩, hstop⟩
  have hgiven (size alignment : UInt64) : (p.allocator.allocate size alignment).2 = 0 ∨
      (p.allocator.allocate size alignment).2 ∈ free := by
    rcases hs.allocate_cases size alignment with ⟨hrun, _⟩ | ⟨node, rest, rfl, _, _, hrun, _⟩
    · exact .inl (by rw [hrun])
    · exact .inr (by rw [hrun]; exact List.mem_cons_self)
  refine ⟨fun size alignment hlive => ?_, ?_, ?_, ⟨free, hs.listed, hfreeNodup⟩,
    ⟨_, hcount, by rw [hexact]; exact hs.length⟩, hs.usage, fun size alignment => ?_⟩
  · rcases hgiven size alignment with hnull | hfree
    · exact (hblock _ (hs.mem_live hlive)).1 hnull
    · exact hdisjoint _ hfree _ hlive rfl
  · rintro ptr (hlive | ⟨hnonnull, size, alignment, rfl⟩)
    · exact (hblock ptr (hs.mem_live hlive)).2
    · exact (hblock _ (hs.mem_free ((hgiven size alignment).resolve_left hnonnull))).2
  · refine hliveNodup.imp_of_mem fun hptr hother hne address hboth => hne ?_
    exact hf.block_unique (hs.mem_live hptr) (hs.mem_live hother) hboth.1 hboth.2
  · have hnone : p.allocator.getAvailableObjects = some 0 ↔ free = [] := by
      rw [hcount, Option.some.injEq, ← UInt64.toNat_inj, hexact, UInt64.toNat_zero, List.length_eq_zero_iff]
    rw [hnone]
    rcases hs.allocate_cases size alignment with ⟨hrun, hwhy⟩ | ⟨node, rest, rfl, hnode, hfits, hrun, _⟩
    · exact iff_of_true (by rw [hrun]) hwhy
    · exact iff_of_false (by rw [hrun]; exact hnode) (by simp [hfits])

variable {objectSize objectCount buffer : UInt64} {memory : Memory}

/-- However a pool is used, it keeps its promises. It counts its objects where
malloc gave it a buffer for them. -/
theorem pools_exact
    (hproduct : (adjustedSize objectSize).toNat * objectCount.toNat < 2 ^ 64)
    (hroom : buffer ≠ 0 →
      buffer.toNat + (adjustedSize objectSize).toNat * objectCount.toNat ≤ 2 ^ 64)
    {ops : List PoolOp} {os : List UInt64}
    (hr : pools.run (.start objectSize objectCount buffer memory) ops = some (p, os)) :
    p.Exact (.create objectSize objectCount buffer memory) := by
  have hf : (CPoolAllocator.create objectSize objectCount buffer memory).Fits :=
    create_fits hproduct hroom
  obtain ⟨free, hs⟩ := Machine.run_keeps
    (fun p => ∃ free, p.Sound (.create objectSize objectCount buffer memory) free)
    (fun s op t o ⟨_, hs⟩ hst => hs.step hf hst) ⟨_, create_sound rfl hf⟩ hr
  exact hs.exact hf

end Run

/-- Two blocks of three, one of them handed out a second time. -/
theorem pools_exact_three : ∃ p os,
    pools.run (.start 24 3 4096 fun _ => 0) [.allocate 24 8, .allocate 1 8, .write 4096 7,
      .deallocate 4096, .allocate 8 8] = some (p, os) ∧
    os = [4096, 4120, 0, 0, 4096] ∧ p.Exact (.create 24 3 4096 fun _ => 0) := by
  have hrun : (pools.run (.start 24 3 4096 fun _ => 0) [.allocate 24 8, .allocate 1 8, .write 4096 7,
      .deallocate 4096, .allocate 8 8]).map Prod.snd = some [4096, 4120, 0, 0, 4096] := by
    decide +kernel
  obtain ⟨⟨p, os⟩, hr, rfl⟩ := Option.map_eq_some_iff.mp hrun
  exact ⟨p, _, hr, rfl, pools_exact (by decide) (by decide) hr⟩

/-- Without a buffer none of three objects is available. -/
theorem pools_none_available : ∃ p os,
    pools.run (.start 24 3 0 fun _ => 0) [.allocate 24 8] = some (p, os) ∧
    p.allocator.getAvailableObjects = some 0 ∧ p.live = [] ∧
    0 + p.live.length ≠ p.allocator.objectCount.toNat :=
  ⟨_, _, rfl, rfl, rfl, by decide⟩

end TgeCore.Memory
