import TgeCore.Memory.FreeListSteps
import TgeCore.Library.Machine

namespace TgeCore.Memory
open Library Library.ByteMemory Library.Extents

/-- A live allocation, as its owner knows it, and what its block held beyond it. -/
structure Allocation where
  ptr : UInt64
  size : UInt64
  padding : UInt64
  alignment : UInt64
  absorbed : Nat
deriving DecidableEq, Repr

/-- Header, padding and requested bytes. -/
def Allocation.extent (a : Allocation) : Extent :=
  ⟨a.ptr.toNat - 16 - a.padding.toNat, 16 + a.padding.toNat + a.size.toNat⟩

/-- Everything Allocate took from the free list for it. -/
def Allocation.owned (a : Allocation) : Nat := a.extent.size + a.absorbed

/-- An allocator in use. `lost` counts what released allocations had absorbed. -/
structure Heap where
  allocator : CFreeListAllocator
  live : List Allocation := []
  lost : Nat := 0

inductive HeapOp where
  | allocate (size alignment : UInt64)
  | deallocate (ptr : UInt64)
  | write (address : Nat) (byte : UInt8)
deriving DecidableEq

/-- The address arithmetic of Allocate stays below 2^64 at every free block. -/
def CFreeListAllocator.NoWrap (s : CFreeListAllocator) (size alignment : UInt64) : Prop :=
  ∀ e ∈ s.freeBlocks, e.addr + 16 + alignment.toNat ≤ 2 ^ 64 ∧
    16 + (placement (UInt64.ofNat e.addr) size alignment).padding.toNat + size.toNat < 2 ^ 64

/-- What callers do: power-of-two alignments and sizes whose arithmetic does not
wrap, live pointers released, bytes written where they were requested. -/
def Heap.Allows (h : Heap) : HeapOp → Prop
  | .allocate size alignment => IsPowerOfTwo alignment ∧ h.allocator.NoWrap size alignment
  | .deallocate ptr => ∃ a ∈ h.live, a.ptr = ptr
  | .write address _ => ∃ a ∈ h.live, a.ptr.toNat ≤ address ∧ address < a.ptr.toNat + a.size.toNat

instance (h : Heap) (op : HeapOp) : Decidable (h.Allows op) :=
  match op with
  | .allocate _ alignment =>
    inferInstanceAs (Decidable (IsPowerOfTwo alignment ∧ ∀ e ∈ h.allocator.freeBlocks, _))
  | .deallocate ptr => inferInstanceAs (Decidable (∃ a ∈ h.live, a.ptr = ptr))
  | .write _ _ => inferInstanceAs (Decidable (∃ a ∈ h.live, _))

def Heap.allocated (h : Heap) (allocator : CFreeListAllocator) (ptr size alignment : UInt64) : Heap :=
  let padding := headerPaddingField allocator.memory ptr
  let absorbed := total h.allocator.freeBlocks - total allocator.freeBlocks -
    (16 + padding.toNat + size.toNat)
  { h with allocator, live := ⟨ptr, size, padding, alignment, absorbed⟩ :: h.live }

def Heap.released (h : Heap) (allocator : CFreeListAllocator) (ptr : UInt64) : Heap :=
  { allocator
    live := h.live.filter (fun a => a.ptr ≠ ptr)
    lost := h.lost + ((h.live.filter (fun a => a.ptr = ptr)).map Allocation.absorbed).sum }

/-- One call, and the pointer it returns. -/
def Heap.step (h : Heap) (op : HeapOp) : Option (Heap × UInt64) :=
  if h.Allows op then
    match op with
    | .allocate size alignment =>
      (h.allocator.allocate size alignment).map fun result =>
        if result.2 = 0 then ({ h with allocator := result.1 }, 0)
        else (h.allocated result.1 result.2 size alignment, result.2)
    | .deallocate ptr =>
      (h.allocator.deallocate ptr).map fun allocator => (h.released allocator ptr, 0)
    | .write address byte =>
      some ({ h with allocator := { h.allocator with
        memory := Function.update h.allocator.memory address byte } }, 0)
  else none

def heaps : Machine Heap HeapOp UInt64 := ⟨Heap.step⟩

@[simp] theorem heaps_step (h : Heap) (op : HeapOp) : heaps.step h op = h.step op := rfl

/-- The header of a live allocation is intact, and its extent is its own. -/
structure Stored (s : CFreeListAllocator) (es : List Extent) (a : Allocation) : Prop where
  start : 16 + a.padding.toNat ≤ a.ptr.toNat
  inside : s.buffer.toNat ≤ a.extent.addr ∧ a.extent.stop ≤ s.buffer.toNat + s.capacity.toNat
  requested : 0 < a.size.toNat
  size : headerSizeField s.memory a.ptr = a.size
  padding : headerPaddingField s.memory a.ptr = a.padding
  aligned : a.alignment.toNat ∣ a.ptr.toNat
  apart : ∀ x, a.extent.Has x → ¬ Covers es x

/-- The invariant of a heap, with its free list spelled out. -/
structure Sound (h : Heap) (es : List Extent) : Prop where
  lists : ListsBlocks h.allocator es
  spaced : Spaced es
  inside : ∀ e ∈ es, h.allocator.buffer.toNat ≤ e.addr ∧
    e.stop ≤ h.allocator.buffer.toNat + h.allocator.capacity.toNat ∧ 16 ≤ e.size
  room : h.allocator.buffer.toNat + h.allocator.capacity.toNat < 2 ^ 64
  buffer : h.allocator.buffer = 0 → es = [] ∧ h.live = []
  live : ∀ a ∈ h.live, Stored h.allocator es a
  apart : h.live.Pairwise (fun a b => Apart a.extent b.extent)

variable {h : Heap} {es : List Extent}

theorem Sound.blocks (hs : Sound h es) : Blocks h.allocator.buffer.toNat
    (h.allocator.buffer.toNat + h.allocator.capacity.toNat) es :=
  ⟨hs.spaced.ordered, hs.inside⟩

theorem Sound.fuel (hs : Sound h es) : es.length < h.allocator.fuel := by
  have := hs.blocks.length_le (by omega)
  simp only [CFreeListAllocator.fuel]
  omega

theorem Sound.positive (hs : Sound h es) : ∀ e ∈ es, 0 < e.addr := by
  intro e he
  have hb : h.allocator.buffer ≠ 0 := by
    intro hb
    rw [(hs.buffer hb).1] at he
    cases he
  exact Nat.lt_of_lt_of_le (toNat_pos hb) (hs.inside e he).1

theorem Sound.freeBlocks (hs : Sound h es) : h.allocator.freeBlocks = es :=
  freeBlocks_eq hs.lists hs.positive hs.fuel

theorem Stored.extent_addr {s : CFreeListAllocator} {a : Allocation} (hst : Stored s es a) :
    a.ptr.toNat = a.extent.addr + 16 + a.padding.toNat := by
  have := hst.start
  simp only [Allocation.extent]
  omega

/-- A live allocation stays as it is when its header is not written. -/
theorem Stored.congr {s s' : CFreeListAllocator} {es' : List Extent} {a : Allocation}
    (hst : Stored s es a) (hm : ∀ i, a.extent.Has i → i < a.ptr.toNat → s.memory i = s'.memory i)
    (hbuf : s'.buffer = s.buffer) (hcap : s'.capacity = s.capacity)
    (hapart : ∀ x, a.extent.Has x → ¬ Covers es' x) : Stored s' es' a := by
  have haddr := hst.extent_addr
  have hheader : ∀ i, a.ptr.toNat - 16 ≤ i → i < a.ptr.toNat → s.memory i = s'.memory i := by
    intro i hl hu
    refine hm i ⟨by omega, ?_⟩ hu
    simp only [Extent.stop, Allocation.extent] at *
    omega
  obtain ⟨hsize, hpadding⟩ := header_congr (by omega) hheader
  exact ⟨hst.start, by rw [hbuf, hcap]; exact hst.inside, hst.requested, hsize ▸ hst.size,
    hpadding ▸ hst.padding, hst.aligned, hapart⟩

end TgeCore.Memory
