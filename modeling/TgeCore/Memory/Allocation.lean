import TgeCore.Library.ByteMemory

namespace TgeCore.Memory
open Library.ByteMemory

/-- CTrackedAllocator's counters. -/
structure CTrackedAllocator where
  totalAllocated : UInt64 := 0
  currentUsage : UInt64 := 0
  numAllocations : UInt64 := 0
  numDeallocations : UInt64 := 0
deriving DecidableEq, Repr

def CTrackedAllocator.recordAlloc (t : CTrackedAllocator) (bytes : UInt64) : CTrackedAllocator :=
  { t with
    totalAllocated := t.totalAllocated + bytes
    currentUsage := t.currentUsage + bytes
    numAllocations := t.numAllocations + 1 }

def CTrackedAllocator.recordDealloc (t : CTrackedAllocator) (bytes : UInt64) : CTrackedAllocator :=
  { t with
    currentUsage := t.currentUsage - bytes
    numDeallocations := t.numDeallocations + 1 }

/-- sizeof(SAllocationHeader): a size, and the padding 8 bytes behind it. -/
def headerSize : UInt64 := 16

def alignUp (dataAddr alignment : UInt64) : UInt64 :=
  (dataAddr + alignment - 1) &&& ~~~(alignment - 1)

/-- What the arithmetic of Allocate finds out about the address of free memory. -/
structure Placement where
  alignedAddr : UInt64
  padding : UInt64
  totalSize : UInt64

def placement (blockAddr size alignment : UInt64) : Placement :=
  let dataAddr := blockAddr + headerSize
  let alignedAddr := alignUp dataAddr alignment
  let padding := alignedAddr - dataAddr
  ⟨alignedAddr, padding, headerSize + padding + size⟩

/-- The header stands immediately before the address handed out. -/
def storeHeader (m : Memory) (ptr size padding : UInt64) : Memory :=
  let header := ptr - headerSize
  store64 (store64 m header.toNat size) (header + 8).toNat padding

def headerSizeField (m : Memory) (ptr : UInt64) : UInt64 := load64 m (ptr - headerSize).toNat

def headerPaddingField (m : Memory) (ptr : UInt64) : UInt64 := load64 m (ptr - headerSize + 8).toNat

def IsPowerOfTwo (alignment : UInt64) : Prop := ∃ k : Fin 64, alignment.toNat = 2 ^ k.val

instance (alignment : UInt64) : Decidable (IsPowerOfTwo alignment) :=
  inferInstanceAs (Decidable (∃ _ : Fin 64, _))

theorem IsPowerOfTwo.pos {alignment : UInt64} (h : IsPowerOfTwo alignment) : 0 < alignment.toNat := by
  obtain ⟨k, hk⟩ := h
  rw [hk]
  exact Nat.two_pow_pos _

theorem IsPowerOfTwo.dvd {alignment : UInt64} (h : IsPowerOfTwo alignment) :
    alignment.toNat ∣ 2 ^ 64 ∧ alignment.toNat ≤ 2 ^ 63 := by
  obtain ⟨k, hk⟩ := h
  rw [hk]
  exact ⟨Nat.pow_dvd_pow 2 (by omega), Nat.pow_le_pow_right (by omega) (by omega)⟩

theorem IsPowerOfTwo.mask {alignment : UInt64} (h : IsPowerOfTwo alignment) :
    ∃ k : Fin 64, alignment.toNat = 2 ^ k.val ∧
      (~~~(alignment - 1)).toNat = 2 ^ 64 - (2 ^ k.val - 1 + 1) := by
  have hpos := h.pos
  obtain ⟨k, hk⟩ := h
  have hone : (alignment - 1).toNat = 2 ^ k.val - 1 := by
    have hle : 1 ≤ alignment := UInt64.le_iff_toNat_le.mpr hpos
    rw [UInt64.toNat_sub_of_le _ _ hle, hk]
    rfl
  refine ⟨k, hk, ?_⟩
  have hsize : UInt64.size = 2 ^ 64 := rfl
  rw [UInt64.toNat_not, hone, hsize]
  omega

/-- Rounding up gives the next multiple, if the sum fits in 64 bits. -/
theorem alignUp_eq {dataAddr alignment : UInt64} (hp : IsPowerOfTwo alignment)
    (hfit : dataAddr.toNat + alignment.toNat ≤ 2 ^ 64) :
    (alignUp dataAddr alignment).toNat =
      (dataAddr.toNat + alignment.toNat - 1) / alignment.toNat * alignment.toNat := by
  have hpos := hp.pos
  obtain ⟨k, hk, hmask⟩ := hp.mask
  have hsum : (dataAddr + alignment - 1).toNat = dataAddr.toNat + alignment.toNat - 1 := by
    rw [UInt64.toNat_sub, UInt64.toNat_add]
    have := dataAddr.toNat_lt
    simp only [UInt64.toNat_one]
    omega
  rw [alignUp, UInt64.toNat_and, hsum, hmask, and_not_mask (by omega) k.isLt, hk]

theorem alignUp_spec {dataAddr alignment : UInt64} (hp : IsPowerOfTwo alignment)
    (hfit : dataAddr.toNat + alignment.toNat ≤ 2 ^ 64) :
    alignment.toNat ∣ (alignUp dataAddr alignment).toNat ∧
      dataAddr.toNat ≤ (alignUp dataAddr alignment).toNat ∧
      (alignUp dataAddr alignment).toNat < dataAddr.toNat + alignment.toNat := by
  have hpos := hp.pos
  rw [alignUp_eq hp hfit]
  refine ⟨Nat.dvd_mul_left _ _, ?_, ?_⟩
  · have := Nat.div_add_mod (dataAddr.toNat + alignment.toNat - 1) alignment.toNat
    have := Nat.mod_lt (dataAddr.toNat + alignment.toNat - 1) hpos
    rw [Nat.mul_comm]
    omega
  · have := Nat.div_mul_le_self (dataAddr.toNat + alignment.toNat - 1) alignment.toNat
    omega

/-- How far an address is from the next multiple. -/
def paddingTo (addr alignment : Nat) : Nat := (alignment - addr % alignment) % alignment

theorem paddingTo_spec (addr : Nat) {alignment : Nat} (hpos : 0 < alignment) :
    alignment ∣ addr + paddingTo addr alignment ∧ paddingTo addr alignment < alignment := by
  refine ⟨?_, Nat.mod_lt _ hpos⟩
  have hlt := Nat.mod_lt addr hpos
  have hsplit := Nat.div_add_mod addr alignment
  unfold paddingTo
  by_cases hzero : addr % alignment = 0
  · rw [hzero, Nat.sub_zero, Nat.mod_self, Nat.add_zero]
    exact Nat.dvd_of_mod_eq_zero hzero
  · rw [Nat.mod_eq_of_lt (by omega)]
    refine ⟨addr / alignment + 1, ?_⟩
    rw [Nat.mul_add, Nat.mul_one]
    omega

theorem paddingTo_mod (addr : Nat) {alignment : UInt64} (hp : IsPowerOfTwo alignment) :
    paddingTo (addr % 2 ^ 64) alignment.toNat = paddingTo addr alignment.toNat := by
  unfold paddingTo
  rw [Nat.mod_mod_of_dvd _ hp.dvd.1]

theorem alignUp_zero {dataAddr alignment : UInt64} (hp : IsPowerOfTwo alignment)
    (hwrap : 2 ^ 64 < dataAddr.toNat + alignment.toNat) : (alignUp dataAddr alignment).toNat = 0 := by
  have haddr := dataAddr.toNat_lt
  have halign := alignment.toNat_lt
  obtain ⟨k, hk, hmask⟩ := hp.mask
  have hsum : (dataAddr + alignment - 1).toNat = dataAddr.toNat + alignment.toNat - 1 - 2 ^ 64 := by
    rw [UInt64.toNat_sub, UInt64.toNat_add]
    simp only [UInt64.toNat_one]
    omega
  have hlow : dataAddr.toNat + alignment.toNat - 1 - 2 ^ 64 < 2 ^ k.val := by omega
  have hfits : dataAddr.toNat + alignment.toNat - 1 - 2 ^ 64 < 2 ^ 64 := by omega
  rw [alignUp, UInt64.toNat_and, hsum, hmask, and_not_mask hfits k.isLt, Nat.div_eq_of_lt hlow,
    Nat.zero_mul]

/-- The padding is right even where rounding up passes 2^64: the multiple that is
then meant is 2^64 itself. -/
theorem alignUp_padding (addr : UInt64) {alignment : UInt64} (hp : IsPowerOfTwo alignment) :
    (alignUp addr alignment - addr).toNat = paddingTo addr.toNat alignment.toNat ∧
      (alignUp addr alignment).toNat =
        (addr.toNat + paddingTo addr.toNat alignment.toNat) % 2 ^ 64 ∧
      addr.toNat + paddingTo addr.toNat alignment.toNat ≤ 2 ^ 64 := by
  have hpos := hp.pos
  have haddr := addr.toNat_lt
  have halign := alignment.toNat_lt
  obtain ⟨hdvd, hlt⟩ := paddingTo_spec addr.toNat hpos
  have hwhole := hp.dvd.1
  have hle : addr.toNat + paddingTo addr.toNat alignment.toNat ≤ 2 ^ 64 := by
    by_contra hgt
    have hgap := Nat.le_of_dvd (by omega) (Nat.dvd_sub hdvd hwhole)
    omega
  have hup : (alignUp addr alignment).toNat =
      (addr.toNat + paddingTo addr.toNat alignment.toNat) % 2 ^ 64 := by
    generalize paddingTo addr.toNat alignment.toNat = padding at hdvd hlt hle
    rcases Nat.lt_or_ge (2 ^ 64) (addr.toNat + alignment.toNat) with hwrap | hfit
    · rw [alignUp_zero hp hwrap]
      -- Below 2^64 the sum would be a whole alignment below it, and so below the address.
      have hend : addr.toNat + padding = 2 ^ 64 := by
        by_contra hne
        have hgap := Nat.le_of_dvd (by omega) (Nat.dvd_sub hwhole hdvd)
        omega
      rw [hend, Nat.mod_self]
    · obtain ⟨hmul, hlow, hup⟩ := alignUp_spec hp hfit
      rw [Nat.mod_eq_of_lt (by omega)]
      rcases Nat.lt_trichotomy (alignUp addr alignment).toNat (addr.toNat + padding) with h | h | h
      · have hgap := Nat.le_of_dvd (by omega) (Nat.dvd_sub hdvd hmul)
        omega
      · exact h
      · have hgap := Nat.le_of_dvd (by omega) (Nat.dvd_sub hmul hdvd)
        omega
  refine ⟨?_, hup, hle⟩
  rw [UInt64.toNat_sub, hup]
  generalize paddingTo addr.toNat alignment.toNat = padding at *
  omega

/-- What Allocate finds out, where only the sums may wrap. -/
theorem placement_spec {block alignment : UInt64} (size : UInt64) {p : Placement} {addr : Nat}
    (hp : placement block size alignment = p) (ha : IsPowerOfTwo alignment)
    (haddr : (block + headerSize).toNat = addr) :
    p.padding.toNat = paddingTo addr alignment.toNat ∧
      p.alignedAddr.toNat = (addr + p.padding.toNat) % 2 ^ 64 ∧ addr + p.padding.toNat ≤ 2 ^ 64 ∧
      alignment.toNat ∣ addr + p.padding.toNat ∧
      p.totalSize.toNat = (16 + p.padding.toNat + size.toNat) % 2 ^ 64 := by
  obtain ⟨hpad, hup, hle⟩ := alignUp_padding (block + headerSize) ha
  subst haddr
  have hpadding : p.padding = alignUp (block + headerSize) alignment - (block + headerSize) := by
    rw [← hp]
    rfl
  rw [hpadding, hpad]
  refine ⟨rfl, ?_, hle, (paddingTo_spec _ ha.pos).1, ?_⟩
  · rw [← hp]
    exact hup
  · have htotal : p.totalSize = headerSize + p.padding + size := by
      rw [← hp]
      rfl
    rw [htotal, hpadding, UInt64.toNat_add, UInt64.toNat_add, hpad]
    change ((16 + _) % 2 ^ 64 + _) % 2 ^ 64 = _
    omega

section Header
variable (m : Memory) (ptr size padding : UInt64)

/-- The two fields of a header never overlap, wherever the header stands. -/
theorem header_fields_apart : (ptr - headerSize).toNat + 8 ≤ (ptr - headerSize + 8).toNat ∨
    (ptr - headerSize + 8).toNat + 8 ≤ (ptr - headerSize).toNat := by
  have := (ptr - headerSize).toNat_lt
  rw [UInt64.toNat_add]
  simp only [UInt64.reduceToNat]
  omega

theorem headerPaddingField_storeHeader :
    headerPaddingField (storeHeader m ptr size padding) ptr = padding :=
  load64_store64 ..

theorem headerSizeField_storeHeader :
    headerSizeField (storeHeader m ptr size padding) ptr = size := by
  simp only [headerSizeField, storeHeader]
  rw [load64_store64_disjoint (header_fields_apart ptr), load64_store64]

variable {m ptr} (h : 16 ≤ ptr.toNat)
include h

theorem header_toNat : (ptr - headerSize).toNat = ptr.toNat - 16 ∧
    (ptr - headerSize + 8).toNat = ptr.toNat - 8 := by
  have hheader : (ptr - headerSize).toNat = ptr.toNat - 16 :=
    UInt64.toNat_sub_of_le _ _ (UInt64.le_iff_toNat_le.mpr h)
  refine ⟨hheader, ?_⟩
  have := ptr.toNat_lt
  rw [UInt64.toNat_add, hheader]
  simp only [UInt64.reduceToNat]
  omega

theorem headerSizeField_eq : headerSizeField m ptr = load64 m (ptr.toNat - 16) := by
  rw [headerSizeField, (header_toNat h).1]

theorem headerPaddingField_eq : headerPaddingField m ptr = load64 m (ptr.toNat - 8) := by
  rw [headerPaddingField, (header_toNat h).2]

theorem storeHeader_frame {i : Nat} (hi : i < ptr.toNat - 16 ∨ ptr.toNat ≤ i) :
    storeHeader m ptr size padding i = m i := by
  obtain ⟨hfirst, hsecond⟩ := header_toNat h
  simp only [storeHeader]
  rw [store64_frame (by omega), store64_frame (by omega)]

/-- A header is read from the 16 bytes before the pointer only. -/
theorem header_congr {m' : Memory} (hm : ∀ i, ptr.toNat - 16 ≤ i → i < ptr.toNat → m i = m' i) :
    headerSizeField m ptr = headerSizeField m' ptr ∧
      headerPaddingField m ptr = headerPaddingField m' ptr := by
  rw [headerSizeField_eq h, headerSizeField_eq h, headerPaddingField_eq h, headerPaddingField_eq h]
  exact ⟨load64_congr fun i hl hu => hm i (by omega) (by omega),
    load64_congr fun i hl hu => hm i (by omega) (by omega)⟩

end Header

end TgeCore.Memory
