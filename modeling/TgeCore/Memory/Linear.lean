import TgeCore.Memory.Allocation
import TgeCore.Library.Extents
import TgeCore.Library.Machine

namespace TgeCore.Memory
open Library Library.Extents

/-- CLinearAllocator's members. Its buffer is handed out and never read. -/
structure CLinearAllocator where
  buffer : UInt64
  capacity : UInt64
  offset : UInt64 := 0
  tracked : CTrackedAllocator := {}
deriving DecidableEq, Repr

/-- The constructor, given what malloc returned for a capacity above zero. -/
def CLinearAllocator.create (capacity buffer : UInt64) : CLinearAllocator :=
  { buffer := if capacity > 0 then buffer else 0, capacity }

def CLinearAllocator.allocate (s : CLinearAllocator) (size alignment : UInt64) :
    CLinearAllocator × UInt64 :=
  if size > 0 ∧ s.buffer ≠ 0 then
    let currentAddr := s.buffer + s.offset
    let alignedAddr := alignUp currentAddr alignment
    let padding := alignedAddr - currentAddr
    let totalSize := padding + size
    if s.offset + totalSize ≤ s.capacity then
      ({ s with offset := s.offset + totalSize, tracked := s.tracked.recordAlloc size }, alignedAddr)
    else (s, 0)
  else (s, 0)

def CLinearAllocator.deallocate (s : CLinearAllocator) (_ : UInt64) : CLinearAllocator := s

def CLinearAllocator.reset (s : CLinearAllocator) : CLinearAllocator :=
  { s with offset := 0, tracked := { s.tracked with currentUsage := 0 } }

/-- What callers of a linear or a stack allocator do. -/
inductive Request where
  | allocate (size alignment : UInt64)
  | deallocate (ptr : UInt64)
  | reset
  | write (address : Nat) (byte : UInt8)
deriving DecidableEq

/-- The bytes asked for, from the pointer on. -/
def requested (ptr size : UInt64) : Extent := ⟨ptr.toNat, size.toNat⟩

/-- An aligned range inside of the buffer that no live allocation has a byte of. -/
structure Granted (buffer capacity : UInt64) (live : List Extent) (size alignment ptr : UInt64) :
    Prop where
  aligned : alignment.toNat ∣ ptr.toNat
  start : buffer.toNat ≤ ptr.toNat
  stop : ptr.toNat + size.toNat ≤ buffer.toNat + capacity.toNat
  apart : ∀ e ∈ live, Apart (requested ptr size) e

/-- The 64-bit sum compares with the capacity as the numbers themselves do, or is
still too large once it has wrapped. -/
def SumHolds (capacity : UInt64) (sum : Nat) : Prop := sum < 2 ^ 64 ∨ capacity.toNat < sum % 2 ^ 64

instance (capacity : UInt64) (sum : Nat) : Decidable (SumHolds capacity sum) :=
  inferInstanceAs (Decidable (_ ∨ _))

/-- A linear allocator in use. -/
structure Linear where
  allocator : CLinearAllocator
  live : List Extent := []
deriving DecidableEq

def Linear.start (capacity buffer : UInt64) : Linear := { allocator := .create capacity buffer }

/-- A call with a power of two for its alignment, and the pointer it returns. The
allocator is told of a Deallocate but keeps the bytes. -/
def Linear.step (h : Linear) : Request → Option (Linear × UInt64)
  | .allocate size alignment =>
    if IsPowerOfTwo alignment then
      let result := h.allocator.allocate size alignment
      if result.2 = 0 then some (⟨result.1, h.live⟩, 0)
      else some (⟨result.1, requested result.2 size :: h.live⟩, result.2)
    else none
  | .deallocate ptr =>
    some (⟨h.allocator.deallocate ptr, h.live.filter (fun e => e.addr ≠ ptr.toNat)⟩, 0)
  | .reset => some (⟨h.allocator.reset, []⟩, 0)
  | .write _ _ => some (h, 0)

def linearCalls : Machine Linear Request UInt64 := ⟨Linear.step⟩

@[simp] theorem linearCalls_step (h : Linear) (r : Request) : linearCalls.step h r = h.step r := rfl

/-- Allocate returns null and has no effect, or a range that is free. -/
def Linear.Serves (h : Linear) : Request → Prop
  | .allocate size alignment =>
    h.allocator.allocate size alignment = (h.allocator, 0) ∨
      ((h.allocator.allocate size alignment).2 ≠ 0 ∧
        Granted h.allocator.buffer h.allocator.capacity h.live size alignment
          (h.allocator.allocate size alignment).2)
  | _ => True

/-- The sum Allocate compares with the capacity. -/
def CLinearAllocator.sum (s : CLinearAllocator) (size alignment : UInt64) : Nat :=
  s.offset.toNat + paddingTo (s.buffer + s.offset).toNat alignment.toNat + size.toNat

def Linear.SumsHold (h : Linear) : Request → Prop
  | .allocate size alignment => size ≠ 0 → h.allocator.buffer ≠ 0 →
      SumHolds h.allocator.capacity (h.allocator.sum size alignment)
  | _ => True

instance (h : Linear) (r : Request) : Decidable (h.SumsHold r) :=
  match r with
  | .allocate _ _ => inferInstanceAs (Decidable (_ ≠ 0 → _ ≠ 0 → SumHolds _ _))
  | .deallocate _ => isTrue trivial
  | .reset => isTrue trivial
  | .write _ _ => isTrue trivial

/-- The live allocations lie below the offset, and the offset in the buffer. -/
structure Linear.Inside (h : Linear) : Prop where
  room : h.allocator.buffer.toNat + h.allocator.capacity.toNat < 2 ^ 64
  offset : h.allocator.offset.toNat ≤ h.allocator.capacity.toNat
  live : ∀ e ∈ h.live, h.allocator.buffer.toNat ≤ e.addr ∧
    e.stop ≤ h.allocator.buffer.toNat + h.allocator.offset.toNat

variable {h h' : Linear} {size alignment o : UInt64}

/-- What Allocate finds out, in numbers that do not wrap. -/
theorem Linear.Inside.allocate_run (hin : h.Inside) (hp : IsPowerOfTwo alignment) (hsize : size ≠ 0)
    (hbuf : h.allocator.buffer ≠ 0) {sum : Nat} (hsum : h.allocator.sum size alignment = sum) :
    ∃ offset ptr : UInt64, offset.toNat = sum % 2 ^ 64 ∧
      ptr.toNat = (h.allocator.buffer.toNat + (sum - size.toNat)) % 2 ^ 64 ∧
      h.allocator.buffer.toNat + (sum - size.toNat) ≤ 2 ^ 64 ∧
      h.allocator.offset.toNat + size.toNat ≤ sum ∧
      alignment.toNat ∣ h.allocator.buffer.toNat + (sum - size.toNat) ∧
      h.allocator.allocate size alignment =
        if sum % 2 ^ 64 ≤ h.allocator.capacity.toNat then
          ({ h.allocator with offset, tracked := h.allocator.tracked.recordAlloc size }, ptr)
        else (h.allocator, 0) := by
  obtain ⟨hpad, hup, hle⟩ := alignUp_padding (h.allocator.buffer + h.allocator.offset) hp
  have hdvd := (paddingTo_spec (h.allocator.buffer + h.allocator.offset).toNat hp.pos).1
  have hroom := hin.room
  have hoffset := hin.offset
  have hcur : (h.allocator.buffer + h.allocator.offset).toNat =
      h.allocator.buffer.toNat + h.allocator.offset.toNat := by
    rw [UInt64.toNat_add]
    omega
  simp only [CLinearAllocator.sum] at hsum
  rw [hcur] at hpad hup hle hdvd hsum
  generalize paddingTo (h.allocator.buffer.toNat + h.allocator.offset.toNat) alignment.toNat = padding
    at hpad hup hle hdvd hsum
  have htotal : (h.allocator.offset + (alignUp (h.allocator.buffer + h.allocator.offset) alignment -
      (h.allocator.buffer + h.allocator.offset) + size)).toNat = sum % 2 ^ 64 := by
    rw [UInt64.toNat_add, UInt64.toNat_add, hpad, ← hsum]
    omega
  have hplace : h.allocator.buffer.toNat + (sum - size.toNat) =
      h.allocator.buffer.toNat + h.allocator.offset.toNat + padding := by omega
  rw [hplace]
  refine ⟨_, _, htotal, hup, hle, by omega, hdvd, ?_⟩
  have hasked : size > 0 := UInt64.pos_iff_ne_zero.mpr hsize
  simp only [CLinearAllocator.allocate, hasked, hbuf, ne_eq, not_false_iff, and_self, if_true,
    UInt64.le_iff_toNat_le, htotal]

theorem recordAlloc_ne {t : CTrackedAllocator} (hsize : size ≠ 0) : t.recordAlloc size ≠ t := by
  intro he
  have husage := congrArg CTrackedAllocator.currentUsage he
  exact hsize (by simpa [CTrackedAllocator.recordAlloc] using husage)

/-- Ranges below the end of what is handed out are apart from what comes after it. -/
theorem apart_above {ptr size : UInt64} {e : Extent} (he : e.stop ≤ ptr.toNat) :
    Apart (requested ptr size) e := by
  intro x hx hxe
  have hlow : ptr.toNat ≤ x := hx.1
  have hup := hxe.2
  omega

theorem Linear.Inside.grow (hin : h.Inside) {offset ptr : UInt64} (tracked : CTrackedAllocator)
    (hcap : offset.toNat ≤ h.allocator.capacity.toNat)
    (hlow : h.allocator.offset.toNat ≤ offset.toNat) (hstart : h.allocator.buffer.toNat ≤ ptr.toNat)
    (hstop : ptr.toNat + size.toNat ≤ h.allocator.buffer.toNat + offset.toNat) :
    Linear.Inside ⟨{ h.allocator with offset, tracked }, requested ptr size :: h.live⟩ := by
  refine ⟨hin.room, hcap, List.forall_mem_cons.mpr ⟨⟨hstart, hstop⟩, fun e he => ?_⟩⟩
  obtain ⟨hfrom, hto⟩ := hin.live e he
  exact ⟨hfrom, hto.trans (Nat.add_le_add_left hlow _)⟩

/-- An Allocate that looks at sums that hold serves, and no other does. -/
theorem Linear.Inside.allocate (hin : h.Inside) (hp : IsPowerOfTwo alignment) :
    (h.Serves (.allocate size alignment) ↔ h.SumsHold (.allocate size alignment)) ∧
      (h.SumsHold (.allocate size alignment) →
        h.step (.allocate size alignment) = some (h', o) → h'.Inside) := by
  have hnone : size = 0 ∨ h.allocator.buffer = 0 →
      h.allocator.allocate size alignment = (h.allocator, 0) := by
    rintro (rfl | hbuf)
    · simp [CLinearAllocator.allocate]
    · simp [CLinearAllocator.allocate, hbuf]
  by_cases hskip : size = 0 ∨ h.allocator.buffer = 0
  · have hrun := hnone hskip
    refine ⟨iff_of_true (.inl hrun) fun hsize hbuf => ?_, fun _ hst => ?_⟩
    · rcases hskip with hzero | hzero
      · exact absurd hzero hsize
      · exact absurd hzero hbuf
    · simp only [Linear.step, hp, if_true, hrun, Option.some.injEq, Prod.mk.injEq] at hst
      exact hst.1 ▸ hin
  obtain ⟨hsize, hbuf⟩ := not_or.mp hskip
  obtain ⟨offset, ptr, hoffset, hptr, hle, hsum, hdvd, hrun⟩ := hin.allocate_run hp hsize hbuf rfl
  have hroom := hin.room
  have hpos : 0 < size.toNat := Nat.pos_of_ne_zero fun hz => hsize (UInt64.toNat_inj.mp hz)
  simp only [Linear.Serves, Linear.SumsHold, hsize, hbuf, ne_eq, not_false_iff, forall_const]
  generalize h.allocator.sum size alignment = sum at *
  by_cases hfull : h.allocator.capacity.toNat < sum % 2 ^ 64
  · rw [if_neg (by omega)] at hrun
    refine ⟨iff_of_true (.inl hrun) (.inr hfull), fun _ hst => ?_⟩
    simp only [Linear.step, hp, if_true, hrun, Option.some.injEq, Prod.mk.injEq] at hst
    exact hst.1 ▸ hin
  rw [if_pos (by omega)] at hrun
  by_cases hwrap : sum < 2 ^ 64
  · have hplace : ptr.toNat = h.allocator.buffer.toNat + (sum - size.toNat) := by
      rw [hptr]
      omega
    have hnonzero : ptr ≠ 0 := by
      rintro rfl
      have : 0 < h.allocator.buffer.toNat := Nat.pos_of_ne_zero fun hz => hbuf (UInt64.toNat_inj.mp hz)
      simp only [UInt64.toNat_zero] at hplace
      omega
    have hgranted : Granted h.allocator.buffer h.allocator.capacity h.live size alignment ptr := by
      refine ⟨hplace ▸ hdvd, by omega, by omega, fun e he => apart_above ?_⟩
      have := hin.live e he
      omega
    refine ⟨iff_of_true (.inr ?_) (.inl hwrap), fun _ hst => ?_⟩
    · rw [hrun]
      exact ⟨hnonzero, hgranted⟩
    · simp only [Linear.step, hp, if_true, hrun, hnonzero, if_false, Option.some.injEq,
        Prod.mk.injEq] at hst
      obtain ⟨rfl, -⟩ := hst
      exact hin.grow _ (by omega) (by omega) (by omega) (by omega)
  · refine ⟨iff_of_false ?_ fun hholds => ?_, fun hholds => ?_⟩
    · rw [hrun]
      rintro (hsame | ⟨hnonzero, hgranted⟩)
      · exact recordAlloc_ne hsize (congrArg CLinearAllocator.tracked (Prod.mk.inj hsame).1)
      · -- The end of the range has wrapped with the sum.
        have hstop := hgranted.stop
        have hplace : ptr.toNat ≠ 0 := fun hz => hnonzero (UInt64.toNat_inj.mp hz)
        simp only at hstop
        omega
    · rcases hholds with hholds | hholds <;> omega
    · rcases hholds with hholds | hholds <;> omega

theorem Linear.Inside.step (hin : h.Inside) {r : Request} (hst : h.step r = some (h', o)) :
    (h.Serves r ↔ h.SumsHold r) ∧ (h.SumsHold r → h'.Inside) := by
  cases r with
  | allocate size alignment =>
    have hp : IsPowerOfTwo alignment := by
      by_contra hp
      simp [Linear.step, hp] at hst
    obtain ⟨hiff, hkeep⟩ := hin.allocate hp
    exact ⟨hiff, fun hholds => hkeep hholds hst⟩
  | deallocate ptr =>
    simp only [Linear.step, CLinearAllocator.deallocate, Option.some.injEq, Prod.mk.injEq] at hst
    obtain ⟨rfl, -⟩ := hst
    exact ⟨Iff.rfl, fun _ => ⟨hin.room, hin.offset, fun e he => hin.live e (List.mem_filter.mp he).1⟩⟩
  | reset =>
    simp only [Linear.step, CLinearAllocator.reset, Option.some.injEq, Prod.mk.injEq] at hst
    obtain ⟨rfl, -⟩ := hst
    exact ⟨Iff.rfl, fun _ => ⟨hin.room, Nat.zero_le _, by simp⟩⟩
  | write address byte =>
    simp only [Linear.step, Option.some.injEq, Prod.mk.injEq] at hst
    obtain ⟨rfl, -⟩ := hst
    exact ⟨Iff.rfl, fun _ => hin⟩

theorem Linear.inside_start {capacity buffer : UInt64}
    (hroom : buffer.toNat + capacity.toNat < 2 ^ 64) : (Linear.start capacity buffer).Inside := by
  refine ⟨?_, Nat.zero_le _, by simp [Linear.start]⟩
  simp only [Linear.start, CLinearAllocator.create]
  split
  · exact hroom
  · simp only [UInt64.toNat_zero]
    omega

/-- In a run every Allocate serves exactly if every sum holds. -/
theorem linear_serves_iff {capacity buffer : UInt64} (hroom : buffer.toNat + capacity.toNat < 2 ^ 64)
    {rs : List Request} {os : List UInt64}
    (hr : linearCalls.run (.start capacity buffer) rs = some (h, os)) :
    linearCalls.Along Linear.Serves (.start capacity buffer) rs ↔
      linearCalls.Along Linear.SumsHold (.start capacity buffer) rs :=
  Machine.Along.congr Linear.Inside (fun _ _ _ _ hin hst => hin.step hst) (Linear.inside_start hroom) hr

end TgeCore.Memory
