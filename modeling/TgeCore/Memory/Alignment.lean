import TgeCore.Memory.Pool
import TgeCore.Memory.Requests

namespace TgeCore.Memory
open Library Library.ByteMemory

/-- What an IAllocator pointer points to. -/
inductive IAllocator where
  | pool (s : CPoolAllocator)
  | linear (s : CLinearAllocator)
  | stack (s : CStackAllocator)
  | freeList (s : CFreeListAllocator)

/-- The virtual call. It may not return, as the free list's loop may not end. -/
def IAllocator.allocate (size alignment : UInt64) : IAllocator → Option (IAllocator × UInt64)
  | .pool s => let result := s.allocate size alignment; some (.pool result.1, result.2)
  | .linear s => let result := s.allocate size alignment; some (.linear result.1, result.2)
  | .stack s => let result := s.allocate size alignment; some (.stack result.1, result.2)
  | .freeList s => (s.allocate size alignment).map fun result => (.freeList result.1, result.2)

/-- An allocator to begin with: its constructor's arguments, and the address that
malloc returned there. -/
inductive Construction where
  | pool (objectSize objectCount buffer : UInt64)
  | linear (capacity buffer : UInt64)
  | stack (capacity buffer : UInt64)
  | freeList (capacity buffer : UInt64)
deriving DecidableEq

/-- Some calls lead from the constructor to this state. -/
def Construction.Reaches (memory : Memory) (a : IAllocator) : Construction → Prop
  | .pool objectSize objectCount buffer => ∃ ops os p,
      pools.run (.start objectSize objectCount buffer memory) ops = some (p, os) ∧ a = .pool p.allocator
  | .linear capacity buffer => ∃ ops os h,
      linearCalls.run (.start capacity buffer) ops = some (h, os) ∧ a = .linear h.allocator
  | .stack capacity buffer => ∃ ops os h,
      stackRequests.run (.start capacity buffer memory) ops = some (h, os) ∧ a = .stack h.allocator
  | .freeList capacity buffer => ∃ ops os h,
      heapRequests.run (.start capacity buffer memory) ops = some (h, os) ∧ a = .freeList h.allocator

/-- The buffer of a pool has the size asked for and lies where it fits. -/
def Construction.Fits : Construction → Prop
  | .pool objectSize objectCount buffer =>
      (adjustedSize objectSize).toNat * objectCount.toNat < 2 ^ 64 ∧
        (buffer ≠ 0 → buffer.toNat + (adjustedSize objectSize).toNat * objectCount.toNat ≤ 2 ^ 64)
  | _ => True

/-- What Allocate returns is a multiple of the alignment asked for. -/
def IAllocator.Aligned (size alignment : UInt64) (a : IAllocator) : Prop :=
  ∀ after ptr, a.allocate size alignment = some (after, ptr) → ptr ≠ 0 → alignment.toNat ∣ ptr.toNat

/-- A pool's blocks must have the alignment by themselves: the first one because of
where the buffer is, and the others because of the object size. -/
def Construction.Keeps (size alignment : UInt64) : Construction → Prop
  | .pool objectSize objectCount buffer =>
      adjustedSize objectSize < size ∨ buffer = 0 ∨ objectCount = 0 ∨
        alignment.toNat ∣ buffer.toNat ∧
          (objectCount = 1 ∨ alignment.toNat ∣ (adjustedSize objectSize).toNat)
  | _ => True

variable {size alignment : UInt64}

theorem alignUp_dvd (addr : UInt64) (hp : IsPowerOfTwo alignment) :
    alignment.toNat ∣ (alignUp addr alignment).toNat := by
  obtain ⟨_, hup, _⟩ := alignUp_padding addr hp
  rw [hup]
  exact (Nat.dvd_mod_iff hp.dvd.1).mpr (paddingTo_spec addr.toNat hp.pos).1

section States
variable (hp : IsPowerOfTwo alignment)
include hp

theorem CLinearAllocator.allocate_dvd (s : CLinearAllocator) :
    alignment.toNat ∣ (s.allocate size alignment).2.toNat := by
  simp only [CLinearAllocator.allocate]
  split
  · split
    · exact alignUp_dvd _ hp
    · exact Nat.dvd_zero _
  · exact Nat.dvd_zero _

theorem CStackAllocator.allocate_dvd (s : CStackAllocator) :
    alignment.toNat ∣ (s.allocate size alignment).2.toNat := by
  simp only [CStackAllocator.allocate]
  split
  · split
    · exact alignUp_dvd _ hp
    · exact Nat.dvd_zero _
  · exact Nat.dvd_zero _

theorem CFreeListAllocator.allocate_dvd {s s' : CFreeListAllocator} {ptr : UInt64}
    (hrun : s.allocate size alignment = some (s', ptr)) : alignment.toNat ∣ ptr.toNat := by
  simp only [CFreeListAllocator.allocate] at hrun
  split at hrun
  · split at hrun
    · cases hrun
    · simp only [Option.some.injEq, Prod.mk.injEq] at hrun
      rw [← hrun.2]
      exact Nat.dvd_zero _
    · simp only [Option.some.injEq, Prod.mk.injEq] at hrun
      rw [← hrun.2]
      exact alignUp_dvd _ hp
  · simp only [Option.some.injEq, Prod.mk.injEq] at hrun
    rw [← hrun.2]
    exact Nat.dvd_zero _

end States

section Pools
variable {objectSize objectCount buffer : UInt64} {memory : Memory}

/-- What a pool with objects starts with. -/
theorem create_some {new : CPoolAllocator}
    (hnew : CPoolAllocator.create objectSize objectCount buffer memory = new) (hbuffer : buffer ≠ 0)
    (hcount : objectCount ≠ 0) :
    new.buffer = buffer ∧ new.freeList = buffer ∧ new.objectSize = adjustedSize objectSize ∧
      new.blockCount = objectCount.toNat := by
  have hsome : objectCount > 0 := UInt64.pos_iff_ne_zero.mpr hcount
  subst hnew
  simp [CPoolAllocator.create, CPoolAllocator.blockCount, hsome, hbuffer]

theorem create_none (hnone : buffer = 0 ∨ objectCount = 0) :
    (CPoolAllocator.create objectSize objectCount buffer memory).buffer = 0 := by
  unfold CPoolAllocator.create
  rcases hnone with rfl | rfl
  · simp
  · simp

/-- The first Allocate leaves the second block at the head of the list. -/
theorem pools_second {new : CPoolAllocator}
    (hnew : CPoolAllocator.create objectSize objectCount buffer memory = new) (hf : new.Fits)
    (hbuffer : buffer ≠ 0) (hcount : 1 < objectCount.toNat) :
    ∃ p, pools.run ⟨new, []⟩ [.allocate 0 1] = some (p, [buffer]) ∧
      p.allocator.objectSize = adjustedSize objectSize ∧
      p.allocator.freeList = buffer + adjustedSize objectSize ∧ p.allocator.freeList ≠ 0 := by
  have hsome : objectCount ≠ 0 := by
    rintro rfl
    cases hcount
  obtain ⟨hbuf, hfirst, hsize, hblocks⟩ := create_some hnew hbuffer hsome
  have hsecond : new.block 1 = buffer + adjustedSize objectSize := by
    rw [CPoolAllocator.block, hbuf, hsize]
    exact congrArg (buffer + ·) (UInt64.one_mul _)
  have hlink : nodeNext new.memory buffer = new.block 1 := by
    obtain ⟨hnone, _⟩ | ⟨hnonnull, _, _, hmemory⟩ := (create_cases hnew).2
    · exact absurd (hbuf.symm.trans hnone) hbuffer
    · have hzero : new.block 0 = buffer := by simp [CPoolAllocator.block, hbuf]
      have hlinks := (linkObjects_spec (m := memory) hf hnonnull (i := 0) (Nat.zero_add _)).1 0
        (Nat.le_refl 0) (by omega)
      rw [if_pos (by omega), hzero] at hlinks
      rw [hmemory]
      exact hlinks
  refine ⟨⟨{ new with
    freeList := nodeNext new.memory buffer
    tracked := new.tracked.recordAlloc new.objectSize }, [buffer]⟩, ?_, hsize, hlink.trans hsecond, ?_⟩
  · simp [Machine.run, Pool.step, CPoolAllocator.allocate, hfirst, hbuffer]
  · rw [hlink]
    exact hf.block_ne_zero (by omega)

/-- A pool returns the head of its list, whatever alignment is asked for. -/
theorem pool_aligned (s : CPoolAllocator) (size alignment : UInt64) :
    (IAllocator.pool s).Aligned size alignment ↔
      (size ≤ s.objectSize → s.freeList ≠ 0 → alignment.toNat ∣ s.freeList.toNat) := by
  constructor
  · intro haligned hsize hfirst
    have hgiven : (s.allocate size alignment).2 = s.freeList := by
      simp [CPoolAllocator.allocate, hsize, hfirst]
    rw [← hgiven] at hfirst ⊢
    exact haligned _ _ rfl hfirst
  · intro hhead after ptr hrun hptr
    obtain ⟨_, rfl⟩ : _ ∧ (s.allocate size alignment).2 = ptr := by
      simpa [IAllocator.allocate] using hrun
    by_cases hgiven : size ≤ s.objectSize ∧ s.freeList ≠ 0
    · have hrun : (s.allocate size alignment).2 = s.freeList := by
        simp [CPoolAllocator.allocate, hgiven]
      rw [hrun]
      exact hhead hgiven.1 hgiven.2
    · have hrun : (s.allocate size alignment).2 = 0 := by
        rw [CPoolAllocator.allocate, if_neg hgiven]
      exact absurd hrun hptr

section Blocks
variable {new : CPoolAllocator}
variable (hnew : CPoolAllocator.create objectSize objectCount buffer memory = new) (hf : new.Fits)
include hnew hf

/-- If all that a pool returns is aligned, then its first two blocks are. -/
theorem pool_keeps_of_aligned (hp : IsPowerOfTwo alignment)
    (haligned : ∀ ops os p, pools.run ⟨new, []⟩ ops = some (p, os) →
      (IAllocator.pool p.allocator).Aligned size alignment) :
    (Construction.pool objectSize objectCount buffer).Keeps size alignment := by
  by_contra hkeeps
  simp only [Construction.Keeps, not_or] at hkeeps
  obtain ⟨hsize, hbuffer, hcount, hblocks⟩ := hkeeps
  obtain ⟨_, hfirst, hadjusted, _⟩ := create_some hnew hbuffer hcount
  have hfits := UInt64.not_lt.mp hsize
  have hhead : alignment.toNat ∣ buffer.toNat := by
    have hbegin := (pool_aligned new size alignment).mp (haligned [] [] ⟨new, []⟩ rfl)
    rw [hadjusted, hfirst] at hbegin
    exact hbegin hfits hbuffer
  refine hblocks ⟨hhead, or_iff_not_imp_left.mpr fun hone => ?_⟩
  have hmore : 1 < objectCount.toNat := by
    have hzero : objectCount.toNat ≠ 0 := fun h => hcount (UInt64.toNat_inj.mp h)
    have hone : objectCount.toNat ≠ 1 := fun h => hone (UInt64.toNat_inj.mp h)
    omega
  obtain ⟨p, hr, hsize', hsecond, hnonnull⟩ := pools_second hnew hf hbuffer hmore
  have hnext := (pool_aligned p.allocator size alignment).mp (haligned _ _ p hr)
    (by rw [hsize']; exact hfits) hnonnull
  rw [hsecond, UInt64.toNat_add, Nat.dvd_mod_iff hp.dvd.1] at hnext
  exact (Nat.dvd_add_right hhead).mp hnext

/-- Every block is aligned if the first two are. -/
theorem block_dvd (hkeeps : (Construction.pool objectSize objectCount buffer).Keeps size alignment)
    (hsize : size ≤ new.objectSize) {i : Nat} (hi : i < new.blockCount) :
    alignment.toNat ∣ (new.block i).toNat := by
  obtain ⟨haddr, _, hnonnull⟩ := hf.block_toNat hi
  have hboth : buffer ≠ 0 ∧ objectCount ≠ 0 := by
    refine ⟨fun hnull => hnonnull ?_, fun hzero => hnonnull ?_⟩
    · rw [← hnew]
      exact create_none (.inl hnull)
    · rw [← hnew]
      exact create_none (.inr hzero)
  obtain ⟨hbuf, _, hadjusted, hcount⟩ := create_some hnew hboth.1 hboth.2
  rw [hadjusted] at hsize
  rw [haddr, hbuf, hadjusted]
  rcases hkeeps with hlarge | hnull | hzero | ⟨hhead, hone | hsizes⟩
  · exact absurd hsize (UInt64.not_le.mpr hlarge)
  · exact absurd hnull hboth.1
  · exact absurd hzero hboth.2
  · rw [hcount, hone] at hi
    obtain rfl : i = 0 := Nat.lt_one_iff.mp hi
    rw [Nat.zero_mul]
    exact hhead
  · exact Nat.dvd_add hhead (Nat.dvd_mul_left_of_dvd hsizes i)

theorem pool_aligned_of_keeps (hkeeps : (Construction.pool objectSize objectCount buffer).Keeps size alignment)
    {ops : List PoolOp} {os : List UInt64} {p : Pool} (hr : pools.run ⟨new, []⟩ ops = some (p, os)) :
    (IAllocator.pool p.allocator).Aligned size alignment := by
  obtain ⟨free, hs⟩ := Machine.run_keeps (fun p => ∃ free, p.Sound new free)
    (fun s op t o ⟨_, hs⟩ hst => hs.step hf hst) ⟨_, create_sound hnew hf⟩ hr
  rw [pool_aligned]
  intro hsize hfirst
  have hlisted := hs.listed
  rw [hs.objectSize] at hsize
  cases free with
  | nil => exact absurd hlisted hfirst
  | cons node rest =>
    obtain ⟨i, hi, hblock⟩ := List.mem_map.mp (hs.mem_free List.mem_cons_self)
    rw [hlisted.1, ← hblock]
    exact block_dvd hnew hf hkeeps hsize (List.mem_range.mp hi)

end Blocks

/-- The blocks of a pool all have an alignment exactly if the first two have it. -/
theorem pool_aligned_iff (hf : (CPoolAllocator.create objectSize objectCount buffer memory).Fits)
    (hp : IsPowerOfTwo alignment) :
    (∀ a, (Construction.pool objectSize objectCount buffer).Reaches memory a → a.Aligned size alignment) ↔
      (Construction.pool objectSize objectCount buffer).Keeps size alignment := by
  constructor
  · intro haligned
    exact pool_keeps_of_aligned rfl hf hp fun ops os p hr => haligned _ ⟨ops, os, p, hr, rfl⟩
  · rintro hkeeps a ⟨ops, os, p, hr, rfl⟩
    exact pool_aligned_of_keeps rfl hf hkeeps hr

end Pools

/-- Allocate returns multiples of the alignment in every state exactly if a pool's
blocks have it by themselves. -/
theorem allocators_aligned_iff {memory : Memory} {c : Construction} (hfits : c.Fits)
    (size : UInt64) (hp : IsPowerOfTwo alignment) :
    (∀ a, c.Reaches memory a → a.Aligned size alignment) ↔ c.Keeps size alignment := by
  cases c with
  | pool objectSize objectCount buffer => exact pool_aligned_iff (create_fits hfits.1 hfits.2) hp
  | linear capacity buffer =>
    refine iff_of_true ?_ trivial
    rintro a ⟨ops, os, h, _, rfl⟩ after ptr hrun _
    cases hrun
    exact h.allocator.allocate_dvd hp
  | stack capacity buffer =>
    refine iff_of_true ?_ trivial
    rintro a ⟨ops, os, h, _, rfl⟩ after ptr hrun _
    cases hrun
    exact h.allocator.allocate_dvd hp
  | freeList capacity buffer =>
    refine iff_of_true ?_ trivial
    rintro a ⟨ops, os, h, _, rfl⟩ after ptr hrun _
    obtain ⟨result, hresult, heq⟩ := Option.map_eq_some_iff.mp hrun
    cases heq
    exact CFreeListAllocator.allocate_dvd hp hresult

/-- Objects of 24 bytes stay multiples of 8 from a multiple of 8 on. -/
theorem allocators_aligned_pool :
    (Construction.pool 24 2 4096).Fits ∧ ∀ a, (Construction.pool 24 2 4096).Reaches (fun _ => 0) a → a.Aligned 24 8 := by
  have hfits : (Construction.pool 24 2 4096).Fits := ⟨by decide, by decide⟩
  refine ⟨hfits, (allocators_aligned_iff hfits 24 (by decide)).mpr ?_⟩
  exact .inr (.inr (.inr ⟨by decide, .inr (by decide)⟩))

/-- The second of them is not a multiple of 16 in a buffer that is one. -/
theorem pool_second_unaligned : ∃ a after, (Construction.pool 24 2 4096).Reaches (fun _ => 0) a ∧
    a.allocate 24 16 = some (after, 4120) ∧ ¬ a.Aligned 24 16 := by
  have hrun : (pools.run (.start 24 2 4096 fun _ => 0) [.allocate 24 16]).map
      (fun r => (r.1.allocator.allocate 24 16).2) = some 4120 := by decide +kernel
  obtain ⟨⟨p, os⟩, hr, hptr⟩ := Option.map_eq_some_iff.mp hrun
  have hallocate : (IAllocator.pool p.allocator).allocate 24 16 =
      some (.pool (p.allocator.allocate 24 16).1, 4120) := by
    rw [← hptr]
    rfl
  refine ⟨_, _, ⟨_, _, p, hr, rfl⟩, hallocate, fun haligned => ?_⟩
  exact absurd (haligned _ _ hallocate (by decide)) (by decide)

end TgeCore.Memory
