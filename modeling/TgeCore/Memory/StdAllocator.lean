import TgeCore.Memory.Alignment

namespace TgeCore.Memory
open Library.ByteMemory Library.Extents

/-- std::bad_alloc. -/
inductive BadAlloc where
  | badAlloc
deriving DecidableEq, Repr

/-- CStdAllocator::allocate, for elements of a size and an alignment: what it leaves,
and the pointer it returns or what it throws. -/
def stdAllocate (elementSize elementAlignment n : UInt64) (a : IAllocator) :
    Option (IAllocator × Except BadAlloc UInt64) :=
  if n > 0xFFFFFFFFFFFFFFFF / elementSize then some (a, .error .badAlloc)
  else (a.allocate (n * elementSize) elementAlignment).map fun result => (result.1, .ok result.2)

/-- The bytes of the elements cannot be counted in 64 bits. -/
def Overflows (elementSize n : UInt64) : Prop := 2 ^ 64 ≤ n.toNat * elementSize.toNat

instance (elementSize n : UInt64) : Decidable (Overflows elementSize n) :=
  inferInstanceAs (Decidable (_ ≤ _))

/-- The allocator beneath has storage for a request. -/
def IAllocator.Serves (size alignment : UInt64) (a : IAllocator) : Prop :=
  ∃ after ptr, a.allocate size alignment = some (after, ptr) ∧ ptr ≠ 0

/-- What a container relies on: storage, or an exception and nothing changed. -/
structure StdContract (elementSize elementAlignment n : UInt64) (a : IAllocator) : Prop where
  comesBack : ∃ result, stdAllocate elementSize elementAlignment n a = some result
  nonnull : ∀ after ptr, stdAllocate elementSize elementAlignment n a = some (after, .ok ptr) → ptr ≠ 0
  unchanged : ∀ after e, stdAllocate elementSize elementAlignment n a = some (after, .error e) →
    after = a
  throws : (∃ after, stdAllocate elementSize elementAlignment n a = some (after, .error .badAlloc)) ↔
    Overflows elementSize n ∨ ¬ a.Serves (n * elementSize) elementAlignment

/-- Rounding an address up does not end at the null pointer. -/
def RoundsUp (addr alignment : UInt64) : Prop :=
  (addr.toNat + paddingTo addr.toNat alignment.toNat) % 2 ^ 64 ≠ 0

instance (addr alignment : UInt64) : Decidable (RoundsUp addr alignment) :=
  inferInstanceAs (Decidable (_ ≠ _))

/-- A free object of the size, room below the capacity, or a free block that fits,
as each allocator counts it. -/
def IAllocator.HasRoom (size alignment : UInt64) : IAllocator → Prop
  | .pool s => size ≤ s.objectSize ∧ s.freeList ≠ 0
  | .linear s => s.buffer ≠ 0 ∧ s.sum size alignment % 2 ^ 64 ≤ s.capacity.toNat ∧
      RoundsUp (s.buffer + s.offset) alignment
  | .stack s => s.buffer ≠ 0 ∧ s.sum size alignment % 2 ^ 64 ≤ s.capacity.toNat ∧
      RoundsUp (s.buffer + s.offset + headerSize) alignment
  | .freeList s => ∃ e ∈ firstFit s.freeBlocks size alignment,
      RoundsUp (UInt64.ofNat e.addr + headerSize) alignment

variable {size alignment elementSize elementAlignment n : UInt64} {a : IAllocator}

theorem roundsUp_iff (addr : UInt64) (hp : IsPowerOfTwo alignment) :
    RoundsUp addr alignment ↔ alignUp addr alignment ≠ 0 := by
  rw [RoundsUp, ← (alignUp_padding addr hp).2.1, ne_eq, ne_eq, ← UInt64.toNat_inj, UInt64.toNat_zero]

/-- What comes back tells whether a request was served. -/
theorem serves_iff_of_run {result : IAllocator × UInt64} (hrun : a.allocate size alignment = some result) :
    a.Serves size alignment ↔ result.2 ≠ 0 := by
  constructor
  · rintro ⟨after, ptr, hgiven, hptr⟩
    cases hrun.symm.trans hgiven
    exact hptr
  · exact fun hptr => ⟨_, _, hrun, hptr⟩

section Room
variable (hsize : size ≠ 0) (hp : IsPowerOfTwo alignment)

theorem pool_serves (s : CPoolAllocator) (alignment : UInt64) :
    (IAllocator.pool s).Serves size alignment ↔ (IAllocator.pool s).HasRoom size alignment := by
  simp only [IAllocator.Serves, IAllocator.HasRoom, IAllocator.allocate, CPoolAllocator.allocate]
  split
  · rename_i hroom
    simp [hroom]
  · rename_i hroom
    simp [hroom]

include hsize hp in
theorem linear_serves (s : CLinearAllocator) :
    (IAllocator.linear s).Serves size alignment ↔ (IAllocator.linear s).HasRoom size alignment := by
  have hasked : size > 0 := UInt64.pos_iff_ne_zero.mpr hsize
  have hsum : (s.offset + (alignUp (s.buffer + s.offset) alignment - (s.buffer + s.offset) + size)).toNat =
      s.sum size alignment % 2 ^ 64 := by
    rw [UInt64.toNat_add, UInt64.toNat_add, (alignUp_padding _ hp).1, CLinearAllocator.sum]
    omega
  have hfits : s.offset + (alignUp (s.buffer + s.offset) alignment - (s.buffer + s.offset) + size) ≤
      s.capacity ↔ s.sum size alignment % 2 ^ 64 ≤ s.capacity.toNat := by
    rw [UInt64.le_iff_toNat_le, hsum]
  have hrun : (IAllocator.linear s).allocate size alignment =
      some (.linear (s.allocate size alignment).1, (s.allocate size alignment).2) := rfl
  rw [serves_iff_of_run hrun, IAllocator.HasRoom, roundsUp_iff _ hp, ← hfits, CLinearAllocator.allocate]
  by_cases hbuffer : s.buffer = 0
  · rw [if_neg fun h => h.2 hbuffer]
    simp [hbuffer]
  · rw [if_pos ⟨hasked, hbuffer⟩]
    dsimp only
    split
    · rename_i hroom
      simp only [hbuffer, hroom, ne_eq, not_false_iff, true_and]
    · rename_i hroom
      simp [hroom]

include hsize hp in
theorem stack_serves (s : CStackAllocator) :
    (IAllocator.stack s).Serves size alignment ↔ (IAllocator.stack s).HasRoom size alignment := by
  have hasked : size > 0 := UInt64.pos_iff_ne_zero.mpr hsize
  obtain ⟨hpad, _, _, _, htotal⟩ := placement_spec size (Eq.refl (placement (s.buffer + s.offset) size alignment)) hp rfl
  have hsum : (s.offset + (placement (s.buffer + s.offset) size alignment).totalSize).toNat =
      s.sum size alignment % 2 ^ 64 := by
    rw [UInt64.toNat_add, htotal, hpad, CStackAllocator.sum]
    omega
  have hfits : s.offset + (placement (s.buffer + s.offset) size alignment).totalSize ≤ s.capacity ↔
      s.sum size alignment % 2 ^ 64 ≤ s.capacity.toNat := by
    rw [UInt64.le_iff_toNat_le, hsum]
  have hrun : (IAllocator.stack s).allocate size alignment =
      some (.stack (s.allocate size alignment).1, (s.allocate size alignment).2) := rfl
  rw [serves_iff_of_run hrun, IAllocator.HasRoom, roundsUp_iff _ hp, ← hfits, CStackAllocator.allocate]
  by_cases hbuffer : s.buffer = 0
  · rw [if_neg fun h => h.2 hbuffer]
    simp [hbuffer]
  · rw [if_pos ⟨hasked, hbuffer⟩]
    dsimp only
    split
    · rename_i hroom
      simp only [hbuffer, hroom, ne_eq, not_false_iff, true_and]
      rfl
    · rename_i hroom
      simp [hroom]

/-- The loop finds the first block of the list that fits, as far as the list is read. -/
theorem findFit_firstFit (m : Memory) (size alignment : UInt64) (fuel : Nat) (prev block : UInt64) :
    (findFit m size alignment fuel prev block).map (·.map fun found => found.2.toNat) =
        some ((firstFit (readBlocks m fuel block) size alignment).map Extent.addr) ∨
      (findFit m size alignment fuel prev block = none ∧
        firstFit (readBlocks m fuel block) size alignment = none) := by
  induction fuel generalizing prev block with
  | zero => exact .inr ⟨rfl, rfl⟩
  | succ fuel ih =>
    by_cases hnull : block = 0
    · exact .inl (by simp [findFit, readBlocks, firstFit, hnull])
    · have htest : sizeOf m block ≥ (placement block size alignment).totalSize ↔
          need ⟨block.toNat, (sizeOf m block).toNat⟩ size alignment ≤ (sizeOf m block).toNat := by
        rw [ge_iff_le, UInt64.le_iff_toNat_le, need, UInt64.ofNat_toNat]
      by_cases hfit : need ⟨block.toNat, (sizeOf m block).toNat⟩ size alignment ≤ (sizeOf m block).toNat
      · exact .inl (by simp [findFit, readBlocks, firstFit, hnull, htest, hfit])
      · have hskip : firstFit (readBlocks m (fuel + 1) block) size alignment =
            firstFit (readBlocks m fuel (nextOf m block)) size alignment := by
          simp [readBlocks, firstFit, hnull, hfit]
        have hstep : findFit m size alignment (fuel + 1) prev block =
            findFit m size alignment fuel block (nextOf m block) := by
          simp [findFit, hnull, htest, hfit]
        rw [hskip, hstep]
        exact ih block (nextOf m block)

include hsize hp in
theorem freeList_serves (s : CFreeListAllocator) :
    (IAllocator.freeList s).Serves size alignment ↔ (IAllocator.freeList s).HasRoom size alignment := by
  have hasked : size > 0 := UInt64.pos_iff_ne_zero.mpr hsize
  have hplace (block : UInt64) : (placement block size alignment).alignedAddr =
      alignUp (block + headerSize) alignment := rfl
  have hgiven : (IAllocator.freeList s).Serves size alignment ↔
      ∃ result, s.allocate size alignment = some result ∧ result.2 ≠ 0 := by
    constructor
    · rintro ⟨after, ptr, hrun, hptr⟩
      obtain ⟨result, hresult, heq⟩ := Option.map_eq_some_iff.mp hrun
      cases heq
      exact ⟨result, hresult, hptr⟩
    · rintro ⟨result, hresult, hptr⟩
      exact ⟨_, _, by rw [IAllocator.allocate, hresult]; rfl, hptr⟩
  rw [hgiven, IAllocator.HasRoom, CFreeListAllocator.allocate, CFreeListAllocator.freeBlocks]
  by_cases hlist : s.freeList = 0
  · have hnone : readBlocks s.memory s.fuel s.freeList = [] := by
      simp [CFreeListAllocator.fuel, readBlocks, hlist]
    rw [if_neg fun h => h.2 hlist, hnone]
    simp [firstFit]
  · rw [if_pos ⟨hasked, hlist⟩]
    rcases findFit_firstFit s.memory size alignment s.fuel 0 s.freeList with hfound | ⟨hnone, hfirst⟩
    · cases hfind : findFit s.memory size alignment s.fuel 0 s.freeList with
      | none => simp [hfind] at hfound
      | some found =>
        cases found with
        | none =>
          have hfirst : firstFit (readBlocks s.memory s.fuel s.freeList) size alignment = none := by
            simpa [hfind] using hfound.symm
          simp [hfirst]
        | some pair =>
          obtain ⟨e, hfirst, haddr⟩ : ∃ e, firstFit (readBlocks s.memory s.fuel s.freeList) size alignment =
              some e ∧ e.addr = pair.2.toNat := by
            rw [hfind] at hfound
            simpa [eq_comm] using hfound
          simp [hfirst, roundsUp_iff _ hp, hplace, haddr]
    · simp [hnone, hfirst]

end Room

/-- A request is served exactly where there is room for it. -/
theorem serves_iff_hasRoom (hsize : size ≠ 0) (hp : IsPowerOfTwo alignment) :
    a.Serves size alignment ↔ a.HasRoom size alignment := by
  cases a with
  | pool s => exact pool_serves s alignment
  | linear s => exact linear_serves hsize hp s
  | stack s => exact stack_serves hsize hp s
  | freeList s => exact freeList_serves hsize hp s

/-- The test that allocate begins with is for a product that overflows. -/
theorem overflows_iff (n : UInt64) (hsize : elementSize ≠ 0) :
    n > 0xFFFFFFFFFFFFFFFF / elementSize ↔ Overflows elementSize n := by
  have hpos := toNat_pos hsize
  rw [gt_iff_lt, UInt64.lt_iff_toNat_lt, UInt64.toNat_div, Nat.div_lt_iff_lt_mul hpos, Overflows]
  exact Nat.lt_iff_add_one_le

section Contract
variable (hsize : elementSize ≠ 0)
include hsize

theorem stdAllocate_of_overflows (elementAlignment : UInt64) (a : IAllocator)
    (hover : Overflows elementSize n) :
    stdAllocate elementSize elementAlignment n a = some (a, .error .badAlloc) :=
  if_pos ((overflows_iff n hsize).mpr hover)

theorem stdAllocate_of_fits (elementAlignment : UInt64) (a : IAllocator)
    (hfits : ¬ Overflows elementSize n) : stdAllocate elementSize elementAlignment n a =
      (a.allocate (n * elementSize) elementAlignment).map fun result => (result.1, .ok result.2) :=
  if_neg fun h => hfits ((overflows_iff n hsize).mp h)

theorem request_ne_zero (hn : n ≠ 0) (hfits : ¬ Overflows elementSize n) : n * elementSize ≠ 0 := by
  intro hzero
  have hproduct := congrArg UInt64.toNat hzero
  rw [UInt64.toNat_mul, UInt64.toNat_zero, Nat.mod_eq_of_lt (Nat.not_le.mp hfits)] at hproduct
  cases Nat.mul_eq_zero.mp hproduct with
  | inl hn' => exact hn (UInt64.toNat_inj.mp hn')
  | inr hs' => exact hsize (UInt64.toNat_inj.mp hs')

/-- What throws for a product that overflows keeps the contract. -/
theorem StdContract.of_overflows (elementAlignment : UInt64) (a : IAllocator)
    (hover : Overflows elementSize n) : StdContract elementSize elementAlignment n a := by
  have hrun := stdAllocate_of_overflows hsize elementAlignment a hover
  refine ⟨⟨_, hrun⟩, ?_, ?_, iff_of_true ⟨a, hrun⟩ (.inl hover)⟩
  · intro after ptr hok
    rw [hrun] at hok
    cases hok
  · intro after e herror
    rw [hrun] at herror
    cases herror
    rfl

/-- Nothing is thrown for any other product. -/
theorem stdAllocate_throws_not (elementAlignment : UInt64) (a : IAllocator)
    (hfits : ¬ Overflows elementSize n) :
    ¬ ∃ after, stdAllocate elementSize elementAlignment n a = some (after, .error .badAlloc) := by
  rintro ⟨after, herror⟩
  rw [stdAllocate_of_fits hsize elementAlignment a hfits] at herror
  obtain ⟨_, _, heq⟩ := Option.map_eq_some_iff.mp herror
  cases heq

theorem StdContract.of_serves (hfits : ¬ Overflows elementSize n)
    (hserves : a.Serves (n * elementSize) elementAlignment) :
    StdContract elementSize elementAlignment n a := by
  have hnever := stdAllocate_throws_not hsize elementAlignment a hfits
  obtain ⟨after, ptr, hgiven, hptr⟩ := hserves
  have hrun := stdAllocate_of_fits hsize elementAlignment a hfits
  rw [hgiven, Option.map_some] at hrun
  refine ⟨⟨_, hrun⟩, ?_, ?_, iff_of_false hnever ?_⟩
  · intro after' ptr' hok
    rw [hrun] at hok
    cases hok
    exact hptr
  · intro after' e herror
    rw [hrun] at herror
    cases herror
  · rintro (hbad | hnone)
    · exact hfits hbad
    · exact hnone ⟨after, ptr, hgiven, hptr⟩

end Contract

/-- The contract is kept exactly if the product overflows or the allocator beneath
has room: without room a null pointer is returned and nothing is thrown. -/
theorem stdAllocate_contract_iff (a : IAllocator) (hn : n ≠ 0) (hsize : elementSize ≠ 0)
    (hp : IsPowerOfTwo elementAlignment) :
    StdContract elementSize elementAlignment n a ↔
      Overflows elementSize n ∨ a.HasRoom (n * elementSize) elementAlignment := by
  by_cases hover : Overflows elementSize n
  · exact iff_of_true (.of_overflows hsize elementAlignment a hover) (.inl hover)
  · rw [← serves_iff_hasRoom (request_ne_zero hsize hn hover) hp]
    constructor
    · intro hcontract
      by_contra hnone
      have hthrown := hcontract.throws.mpr (.inr fun hserves => hnone (.inr hserves))
      exact stdAllocate_throws_not hsize elementAlignment a hover hthrown
    · rintro (hbad | hserves)
      · exact absurd hbad hover
      · exact .of_serves hsize hover hserves

/-- Ten elements of 4 bytes over a linear allocator of 64 bytes. -/
theorem stdAllocate_contract_linear : StdContract 4 4 10 (.linear (.create 64 4096)) :=
  (stdAllocate_contract_iff _ (by decide) (by decide) (by decide)).mpr
    (.inr ⟨by decide, by decide, by decide⟩)

/-- Ten of them over one of 16 bytes, at the null pointer. -/
theorem stdAllocate_null :
    stdAllocate 4 4 10 (.linear (.create 16 4096)) = some (.linear (.create 16 4096), .ok 0) ∧
    ¬ StdContract 4 4 10 (.linear (.create 16 4096)) := by
  have hrun : stdAllocate 4 4 10 (.linear (.create 16 4096)) =
      some (.linear (.create 16 4096), .ok 0) := rfl
  exact ⟨hrun, fun hcontract => hcontract.nonnull _ _ hrun rfl⟩

end TgeCore.Memory
