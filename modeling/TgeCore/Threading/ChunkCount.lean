import Mathlib.Algebra.Order.Floor.Div
import TgeCore.Threading.ParallelFor

namespace TgeCore.Threading

/-- A grain of zero stands for one. -/
def grainOf (grainSize : UInt32) : Nat := max grainSize.toNat 1

/-- As many chunks as the grain leaves, and at most one for each worker. -/
def exactChunkCount (numThreads : Nat) (numItems grainSize : UInt32) : Nat :=
  min numThreads (numItems.toNat ⌈/⌉ grainOf grainSize)

/-- The sum before the division fits 32 bits. So does the number of workers, or what is
left of it is still enough to give each a grain of the items. -/
def ChunkCountFits (numThreads : Nat) (numItems grainSize : UInt32) : Prop :=
  numItems.toNat + grainOf grainSize - 1 < 2 ^ 32 ∧
    (numThreads < 2 ^ 32 ∨ numItems.toNat ≤ grainOf grainSize * (numThreads % 2 ^ 32))

section ChunkCount
variable {numThreads : Nat} {numItems grainSize : UInt32}

theorem minUInt32_toNat (a b : UInt32) : (min a b).toNat = min a.toNat b.toNat := by
  change (if a ≤ b then a else b).toNat = _
  split
  · rename_i hle
    exact (Nat.min_eq_left (UInt32.le_iff_toNat_le.mp hle)).symm
  · rename_i hlt
    have hle := UInt32.le_iff_toNat_le.mp (UInt32.le_of_lt (UInt32.not_le.mp hlt))
    exact (Nat.min_eq_right hle).symm

theorem effectiveGrain_toNat (grainSize : UInt32) :
    (if 0 < grainSize then grainSize else 1).toNat = grainOf grainSize := by
  unfold grainOf
  split
  · rename_i hpos
    have hpos : 0 < grainSize.toNat := UInt32.lt_iff_toNat_lt.mp hpos
    omega
  · rename_i hzero
    have hzero : ¬0 < grainSize.toNat := fun hpos => hzero (UInt32.lt_iff_toNat_lt.mpr hpos)
    have hone : (1 : UInt32).toNat = 1 := rfl
    omega

theorem grainOf_lt (grainSize : UInt32) : grainOf grainSize < 2 ^ 32 := by
  have := grainSize.toNat_lt
  unfold grainOf
  omega

theorem grainOf_pos (grainSize : UInt32) : 0 < grainOf grainSize :=
  Nat.lt_of_lt_of_le Nat.zero_lt_one (Nat.le_max_right _ _)

/-- What the function returns, over the natural numbers. -/
theorem chunkCount_toNat (hthreads : 0 < numThreads) :
    (computeParallelChunkCount numThreads numItems grainSize).toNat =
      min (numThreads % 2 ^ 32)
        ((numItems.toNat + grainOf grainSize - 1) % 2 ^ 32 / grainOf grainSize) := by
  have hgrain : 0 < if 0 < grainSize then grainSize else 1 := by
    apply UInt32.lt_iff_toNat_lt.mpr
    rw [effectiveGrain_toNat]
    exact grainOf_pos grainSize
  rw [computeParallelChunkCount, if_pos hthreads, minUInt32_toNat, UInt32.toNat_ofNat',
    chunkLimit_toNat hgrain, effectiveGrain_toNat]

/-- A sum that wraps leaves less than one grain. -/
theorem wrapped_limit (hwraps : 2 ^ 32 ≤ numItems.toNat + grainOf grainSize - 1) :
    (numItems.toNat + grainOf grainSize - 1) % 2 ^ 32 / grainOf grainSize = 0 := by
  have hitems := numItems.toNat_lt
  have hgrain := grainOf_lt grainSize
  have hrest : (numItems.toNat + grainOf grainSize - 1) % 2 ^ 32 =
      numItems.toNat + grainOf grainSize - 1 - 2 ^ 32 := by
    rw [Nat.mod_eq_sub_mod hwraps, Nat.mod_eq_of_lt (by omega)]
  rw [hrest, Nat.div_eq_of_lt (by omega)]

theorem wrapped_items (hwraps : 2 ^ 32 ≤ numItems.toNat + grainOf grainSize - 1) :
    0 < numItems.toNat ⌈/⌉ grainOf grainSize := by
  have hgrain := grainOf_lt grainSize
  rw [Nat.ceilDiv_eq_add_pred_div]
  exact Nat.div_pos (by omega) (grainOf_pos grainSize)

theorem exactChunkCount_le : numItems.toNat ⌈/⌉ grainOf grainSize ≤ numItems.toNat := by
  apply (ceilDiv_le_iff_le_mul (grainOf_pos grainSize)).mpr
  exact Nat.le_mul_of_pos_left _ (grainOf_pos grainSize)

/-- The count is the exact one if and only if no upper bits that matter are lost. -/
theorem computeParallelChunkCount_exact (hthreads : 0 < numThreads) :
    (computeParallelChunkCount numThreads numItems grainSize).toNat =
        exactChunkCount numThreads numItems grainSize ↔
      ChunkCountFits numThreads numItems grainSize := by
  have hceil : numItems.toNat ⌈/⌉ grainOf grainSize < 2 ^ 32 :=
    Nat.lt_of_le_of_lt exactChunkCount_le numItems.toNat_lt
  rw [chunkCount_toNat hthreads, exactChunkCount, ChunkCountFits,
    ← ceilDiv_le_iff_le_mul (grainOf_pos grainSize)]
  rcases Nat.lt_or_ge (numItems.toNat + grainOf grainSize - 1) (2 ^ 32) with hfits | hwraps
  · rw [Nat.mod_eq_of_lt hfits, ← Nat.ceilDiv_eq_add_pred_div]
    rcases Nat.lt_or_ge numThreads (2 ^ 32) with hfew | hmany
    · rw [Nat.mod_eq_of_lt hfew]
      exact iff_of_true rfl ⟨hfits, Or.inl hfew⟩
    · -- so many workers bound nothing, what is left of them may
      rw [Nat.min_eq_right (hceil.le.trans hmany)]
      omega
  · have hsome := wrapped_items hwraps
    rw [wrapped_limit hwraps, Nat.min_zero]
    omega

theorem computeParallelChunkCount_exact_ten :
    (computeParallelChunkCount 8 10 64).toNat = exactChunkCount 8 10 64 ↔ ChunkCountFits 8 10 64 :=
  computeParallelChunkCount_exact (by decide)

/-- Every index of the 32 bits but the last, in grains of two, on eight workers: no chunk
where there should be eight. -/
theorem chunkCount_wraps :
    (computeParallelChunkCount 8 4294967295 2).toNat = 0 ∧ exactChunkCount 8 4294967295 2 = 8 ∧
      (computeParallelChunkCount 8 4294967295 2).toNat ≠ exactChunkCount 8 4294967295 2 := by
  decide

end ChunkCount

end TgeCore.Threading
