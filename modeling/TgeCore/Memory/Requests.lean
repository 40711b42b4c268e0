import TgeCore.Memory.Linear
import TgeCore.Memory.Stack
import TgeCore.Memory.FreeListAccounts

namespace TgeCore.Memory
open Library Library.ByteMemory Library.Extents

variable {size alignment o : UInt64}

section Stacks

/-- A stack allocator whose callers ask for anything and release in any order. -/
structure StackUse where
  allocator : CStackAllocator
  live : List Extent := []

def StackUse.start (capacity buffer : UInt64) (memory : Memory) : StackUse :=
  { allocator := .create capacity buffer memory }

/-- A call with a power of two for its alignment, and the pointer it returns. Bytes
are written where they were asked for. -/
def StackUse.step (h : StackUse) : Request → Option (StackUse × UInt64)
  | .allocate size alignment =>
    if IsPowerOfTwo alignment then
      let result := h.allocator.allocate size alignment
      if result.2 = 0 then some (⟨result.1, h.live⟩, 0)
      else some (⟨result.1, requested result.2 size :: h.live⟩, result.2)
    else none
  | .deallocate ptr =>
    some (⟨h.allocator.deallocate ptr, h.live.filter (fun e => e.addr ≠ ptr.toNat)⟩, 0)
  | .reset => some (⟨h.allocator.reset, []⟩, 0)
  | .write address byte =>
    if ∃ e ∈ h.live, e.addr ≤ address ∧ address < e.stop then
      some ({ h with allocator := { h.allocator with
        memory := Function.update h.allocator.memory address byte } }, 0)
    else none

def stackRequests : Machine StackUse Request UInt64 := ⟨StackUse.step⟩

@[simp] theorem stackRequests_step (h : StackUse) (r : Request) :
    stackRequests.step h r = h.step r := rfl

/-- Allocate returns null and has no effect, or a range that is free. -/
def StackUse.Serves (h : StackUse) : Request → Prop
  | .allocate size alignment =>
    h.allocator.allocate size alignment = (h.allocator, 0) ∨
      ((h.allocator.allocate size alignment).2 ≠ 0 ∧
        Granted h.allocator.buffer h.allocator.capacity h.live size alignment
          (h.allocator.allocate size alignment).2)
  | _ => True

/-- The sum Allocate compares with the capacity. -/
def CStackAllocator.sum (s : CStackAllocator) (size alignment : UInt64) : Nat :=
  s.offset.toNat + 16 + paddingTo (s.buffer + s.offset + headerSize).toNat alignment.toNat + size.toNat

def StackUse.SumsHold (h : StackUse) : Request → Prop
  | .allocate size alignment => size ≠ 0 → h.allocator.buffer ≠ 0 →
      SumHolds h.allocator.capacity (h.allocator.sum size alignment)
  | _ => True

instance (h : StackUse) (r : Request) : Decidable (h.SumsHold r) :=
  match r with
  | .allocate _ _ => inferInstanceAs (Decidable (_ ≠ 0 → _ ≠ 0 → SumHolds _ _))
  | .deallocate _ => isTrue trivial
  | .reset => isTrue trivial
  | .write _ _ => isTrue trivial

/-- The last allocation ends at the offset, and everything else that is live lies
below its header. -/
structure CStackAllocator.Topped (s : CStackAllocator) (live : List Extent) : Prop where
  start : s.buffer.toNat + 16 + (headerPaddingField s.memory s.lastAllocation).toNat ≤
    s.lastAllocation.toNat
  stop : s.lastAllocation.toNat + (headerSizeField s.memory s.lastAllocation).toNat =
    s.buffer.toNat + s.offset.toNat
  below : ∀ e ∈ live, e.addr = s.lastAllocation.toNat ∨
    e.stop + 16 + (headerPaddingField s.memory s.lastAllocation).toNat ≤ s.lastAllocation.toNat

/-- The live allocations lie below the offset, and the offset in the buffer. -/
structure StackUse.Inside (h : StackUse) : Prop where
  room : h.allocator.buffer.toNat + h.allocator.capacity.toNat < 2 ^ 64
  offset : h.allocator.offset.toNat ≤ h.allocator.capacity.toNat
  live : ∀ e ∈ h.live, h.allocator.buffer.toNat ≤ e.addr ∧
    e.stop ≤ h.allocator.buffer.toNat + h.allocator.offset.toNat
  topped : h.allocator.lastAllocation ≠ 0 → h.allocator.Topped h.live

variable {h h' : StackUse}

theorem StackUse.Inside.deallocate (hin : h.Inside) (ptr : UInt64) : StackUse.Inside
    ⟨h.allocator.deallocate ptr, h.live.filter (fun e => e.addr ≠ ptr.toNat)⟩ := by
  have hkept : ∀ e ∈ h.live.filter (fun e => e.addr ≠ ptr.toNat), e ∈ h.live ∧ e.addr ≠ ptr.toNat := by
    intro e he
    simpa using List.mem_filter.mp he
  by_cases htaken : ptr = h.allocator.lastAllocation ∧ ptr ≠ 0
  · obtain ⟨hlast, hptr⟩ := htaken
    obtain ⟨hstart, hstop, hbelow⟩ := hin.topped (hlast ▸ hptr)
    have hroom := hin.room
    have hoffset := hin.offset
    rw [← hlast] at hstart hstop hbelow
    have htotal : (headerSize + headerPaddingField h.allocator.memory ptr +
        headerSizeField h.allocator.memory ptr).toNat =
        16 + (headerPaddingField h.allocator.memory ptr).toNat +
          (headerSizeField h.allocator.memory ptr).toNat := by
      rw [UInt64.toNat_add, UInt64.toNat_add]
      change ((16 + _) % 2 ^ 64 + _) % 2 ^ 64 = _
      omega
    have hrun : h.allocator.deallocate ptr = { h.allocator with
        offset := h.allocator.offset - (headerSize + headerPaddingField h.allocator.memory ptr +
          headerSizeField h.allocator.memory ptr)
        tracked := h.allocator.tracked.recordDealloc (headerSizeField h.allocator.memory ptr)
        lastAllocation := 0 } := if_pos ⟨hlast, hptr⟩
    have hback : (h.allocator.offset - (headerSize + headerPaddingField h.allocator.memory ptr +
        headerSizeField h.allocator.memory ptr)).toNat = ptr.toNat - h.allocator.buffer.toNat - 16 -
          (headerPaddingField h.allocator.memory ptr).toNat := by
      rw [UInt64.toNat_sub_of_le _ _ (by rw [UInt64.le_iff_toNat_le, htotal]; omega), htotal]
      omega
    rw [hrun]
    refine ⟨hroom, ?_, fun e he => ?_, fun hnull => absurd rfl hnull⟩
    · change (_ - _ : UInt64).toNat ≤ h.allocator.capacity.toNat
      rw [hback]
      omega
    · obtain ⟨hlive, hne⟩ := hkept e he
      refine ⟨(hin.live e hlive).1, ?_⟩
      change e.stop ≤ h.allocator.buffer.toNat + (_ - _ : UInt64).toNat
      rw [hback]
      cases hbelow e hlive with
      | inl heq => exact absurd heq hne
      | inr hle => omega
  · have hrun : h.allocator.deallocate ptr = h.allocator := if_neg htaken
    rw [hrun]
    refine ⟨hin.room, hin.offset, fun e he => hin.live e (hkept e he).1, fun hlast => ?_⟩
    obtain ⟨hstart, hstop, hbelow⟩ := hin.topped hlast
    exact ⟨hstart, hstop, fun e he => hbelow e (hkept e he).1⟩

theorem StackUse.Inside.written (hin : h.Inside) {e : Extent} {address : Nat} (he : e ∈ h.live)
    (hl : e.addr ≤ address) (hu : address < e.stop) (byte : UInt8) :
    StackUse.Inside { h with allocator := { h.allocator with
      memory := Function.update h.allocator.memory address byte } } := by
  refine ⟨hin.room, hin.offset, hin.live, fun hlast => ?_⟩
  obtain ⟨hstart, hstop, hbelow⟩ := hin.topped hlast
  have hheader : ∀ i, h.allocator.lastAllocation.toNat - 16 ≤ i →
      i < h.allocator.lastAllocation.toNat →
      h.allocator.memory i = Function.update h.allocator.memory address byte i := by
    intro i hlow hup
    refine (Function.update_of_ne ?_ _ _).symm
    rintro rfl
    cases hbelow e he with
    | inl heq => omega
    | inr hle => omega
  obtain ⟨hsize, hpadding⟩ := header_congr (by omega) hheader
  rw [hpadding] at hstart hbelow
  rw [hsize] at hstop
  exact ⟨hstart, hstop, hbelow⟩

/-- What Allocate finds out, in numbers that do not wrap. -/
theorem StackUse.allocate_run (h : StackUse) (hp : IsPowerOfTwo alignment) (hsize : size ≠ 0)
    (hbuf : h.allocator.buffer ≠ 0) {addr sum : Nat}
    (haddr : (h.allocator.buffer + h.allocator.offset + headerSize).toNat = addr)
    (hsum : h.allocator.sum size alignment = sum) :
    ∃ (offset : UInt64) (p : Placement), offset.toNat = sum % 2 ^ 64 ∧
      sum = h.allocator.offset.toNat + 16 + p.padding.toNat + size.toNat ∧
      p.alignedAddr.toNat = (addr + p.padding.toNat) % 2 ^ 64 ∧ addr + p.padding.toNat ≤ 2 ^ 64 ∧
      alignment.toNat ∣ addr + p.padding.toNat ∧
      h.allocator.allocate size alignment =
        if sum % 2 ^ 64 ≤ h.allocator.capacity.toNat then
          ({ h.allocator with
            memory := storeHeader h.allocator.memory p.alignedAddr size p.padding
            lastAllocation := p.alignedAddr
            offset
            tracked := h.allocator.tracked.recordAlloc size }, p.alignedAddr)
        else (h.allocator, 0) := by
  obtain ⟨hpad, hptr, hle, hdvd, htotal⟩ := placement_spec size rfl hp haddr
  have hoffset : (h.allocator.offset + (placement (h.allocator.buffer + h.allocator.offset) size
      alignment).totalSize).toNat = sum % 2 ^ 64 := by
    rw [UInt64.toNat_add, htotal, ← hsum, CStackAllocator.sum, haddr, ← hpad]
    omega
  refine ⟨_, _, hoffset, ?_, hptr, hle, hdvd, ?_⟩
  · rw [← hsum, CStackAllocator.sum, haddr, ← hpad]
  · have hasked : size > 0 := UInt64.pos_iff_ne_zero.mpr hsize
    simp only [CStackAllocator.allocate, hasked, hbuf, ne_eq, not_false_iff, and_self, if_true,
      UInt64.le_iff_toNat_le, hoffset]

theorem StackUse.Inside.grow (hin : h.Inside) {offset ptr padding : UInt64}
    (tracked : CTrackedAllocator) (hcap : offset.toNat ≤ h.allocator.capacity.toNat)
    (hstart : h.allocator.buffer.toNat + h.allocator.offset.toNat + 16 + padding.toNat = ptr.toNat)
    (hstop : ptr.toNat + size.toNat = h.allocator.buffer.toNat + offset.toNat) :
    StackUse.Inside ⟨{ h.allocator with
      memory := storeHeader h.allocator.memory ptr size padding
      lastAllocation := ptr, offset, tracked }, requested ptr size :: h.live⟩ := by
  refine ⟨hin.room, hcap, List.forall_mem_cons.mpr ⟨?_, fun e he => ?_⟩, fun _ => ⟨?_, ?_, ?_⟩⟩
  · simp only [requested, Extent.stop]
    omega
  · obtain ⟨hfrom, hto⟩ := hin.live e he
    exact ⟨hfrom, hto.trans (by simp only; omega)⟩
  · simp only [headerPaddingField_storeHeader]
    omega
  · simp only [headerSizeField_storeHeader]
    exact hstop
  · refine List.forall_mem_cons.mpr ⟨.inl rfl, fun e he => .inr ?_⟩
    have hto := (hin.live e he).2
    simp only [headerPaddingField_storeHeader]
    omega

/-- The address of the data behind a header, where the sum does not wrap. -/
theorem dataStart_toNat {a b : UInt64} (hroom : a.toNat + b.toNat + 16 < 2 ^ 64) :
    (a + b + headerSize).toNat = a.toNat + b.toNat + 16 := by
  rw [UInt64.toNat_add, UInt64.toNat_add]
  change ((_ + _) % 2 ^ 64 + 16) % 2 ^ 64 = _
  omega

/-- An Allocate whose sum holds serves, and the stack stays in order. -/
theorem StackUse.Inside.allocate (hin : h.Inside) (hp : IsPowerOfTwo alignment)
    (hholds : h.SumsHold (.allocate size alignment)) : h.Serves (.allocate size alignment) ∧
      (h.step (.allocate size alignment) = some (h', o) → h'.Inside) := by
  have hskipped (hrun : h.allocator.allocate size alignment = (h.allocator, 0)) :
      h.Serves (.allocate size alignment) ∧
        (h.step (.allocate size alignment) = some (h', o) → h'.Inside) := by
    refine ⟨.inl hrun, fun hst => ?_⟩
    simp only [StackUse.step, hp, if_true, hrun, Option.some.injEq, Prod.mk.injEq] at hst
    exact hst.1 ▸ hin
  by_cases hsize : size = 0
  · exact hskipped (by simp [CStackAllocator.allocate, hsize])
  by_cases hbuf : h.allocator.buffer = 0
  · exact hskipped (by simp [CStackAllocator.allocate, hbuf])
  obtain ⟨offset, p, hoffset, hsum, hptr, hle, hdvd, hrun⟩ := h.allocate_run hp hsize hbuf rfl rfl
  have hholds := hholds hsize hbuf
  generalize h.allocator.sum size alignment = sum at *
  by_cases hfull : h.allocator.capacity.toNat < sum % 2 ^ 64
  · rw [if_neg (by omega)] at hrun
    exact hskipped hrun
  rw [if_pos (by omega)] at hrun
  have hroom := hin.room
  have hwrap : sum < 2 ^ 64 := by
    cases hholds with
    | inl hfits => exact hfits
    | inr hlarge => exact absurd hlarge hfull
  have haddr := dataStart_toNat (a := h.allocator.buffer) (b := h.allocator.offset) (by omega)
  rw [haddr] at hptr hle hdvd
  have hpos : 0 < size.toNat := toNat_pos hsize
  have hplace : p.alignedAddr.toNat =
      h.allocator.buffer.toNat + h.allocator.offset.toNat + 16 + p.padding.toNat := by omega
  have hnonzero : p.alignedAddr ≠ 0 := by
    intro hzero
    rw [hzero, UInt64.toNat_zero] at hplace
    omega
  have hgranted : Granted h.allocator.buffer h.allocator.capacity h.live size alignment
      p.alignedAddr := by
    refine ⟨hplace ▸ hdvd, by omega, by omega, fun e he => apart_above ?_⟩
    have := hin.live e he
    omega
  refine ⟨.inr ?_, fun hst => ?_⟩
  · rw [hrun]
    exact ⟨hnonzero, hgranted⟩
  · simp only [StackUse.step, hp, if_true, hrun, hnonzero, if_false, Option.some.injEq,
      Prod.mk.injEq] at hst
    obtain ⟨rfl, -⟩ := hst
    exact hin.grow _ (by omega) (by omega) (by omega)

theorem StackUse.Inside.step (hin : h.Inside) {r : Request} (hst : h.step r = some (h', o))
    (hholds : h.SumsHold r) : h.Serves r ∧ h'.Inside := by
  cases r with
  | allocate size alignment =>
    have hp : IsPowerOfTwo alignment := by
      by_contra hp
      simp [StackUse.step, hp] at hst
    obtain ⟨hserves, hkeep⟩ := hin.allocate hp hholds
    exact ⟨hserves, hkeep hst⟩
  | deallocate ptr =>
    simp only [StackUse.step, Option.some.injEq, Prod.mk.injEq] at hst
    exact ⟨trivial, hst.1 ▸ hin.deallocate ptr⟩
  | reset =>
    simp only [StackUse.step, CStackAllocator.reset, Option.some.injEq, Prod.mk.injEq] at hst
    obtain ⟨rfl, -⟩ := hst
    exact ⟨trivial, hin.room, Nat.zero_le _, by simp, fun hnull => absurd rfl hnull⟩
  | write address byte =>
    simp only [StackUse.step] at hst
    split at hst
    · rename_i hown
      obtain ⟨e, he, hl, hu⟩ := hown
      simp only [Option.some.injEq, Prod.mk.injEq] at hst
      exact ⟨trivial, hst.1 ▸ hin.written he hl hu byte⟩
    · cases hst

/-- Where a header still has an address behind the buffer, a sum that does not hold
is an Allocate that does not serve. -/
theorem StackUse.Inside.sums_of_serves (hin : h.Inside) {r : Request} (hst : h.step r = some (h', o))
    (hheader : h.allocator.buffer.toNat + h.allocator.capacity.toNat + 16 < 2 ^ 64)
    (hserves : h.Serves r) : h.SumsHold r := by
  cases r with
  | allocate size alignment =>
    have hp : IsPowerOfTwo alignment := by
      by_contra hp
      simp [StackUse.step, hp] at hst
    intro hsize hbuf
    obtain ⟨offset, p, hoffset, hsum, hptr, hle, hdvd, hrun⟩ := h.allocate_run hp hsize hbuf rfl rfl
    generalize h.allocator.sum size alignment = sum at *
    by_cases hfull : h.allocator.capacity.toNat < sum % 2 ^ 64
    · exact .inr hfull
    rw [if_pos (by omega)] at hrun
    refine .inl ?_
    by_contra hwrap
    have hin' := hin.offset
    have haddr := dataStart_toNat (a := h.allocator.buffer) (b := h.allocator.offset) (by omega)
    rw [haddr] at hptr hle
    rw [StackUse.Serves, hrun] at hserves
    cases hserves with
    | inl hsame =>
      exact recordAlloc_ne hsize (congrArg CStackAllocator.tracked (Prod.mk.inj hsame).1)
    | inr hgiven =>
      obtain ⟨hnonzero, hgranted⟩ := hgiven
      have hstart := hgranted.start
      have hstop := hgranted.stop
      have hplace : p.alignedAddr.toNat ≠ 0 := fun hz => hnonzero (UInt64.toNat_inj.mp hz)
      simp only at hstop hstart hplace
      omega
  | deallocate ptr => trivial
  | reset => trivial
  | write address byte => trivial

theorem StackUse.step_frame {r : Request} (hst : h.step r = some (h', o)) :
    h'.allocator.buffer = h.allocator.buffer ∧ h'.allocator.capacity = h.allocator.capacity := by
  cases r with
  | allocate size alignment =>
    have hkept : (h.allocator.allocate size alignment).1.buffer = h.allocator.buffer ∧
        (h.allocator.allocate size alignment).1.capacity = h.allocator.capacity := by
      simp only [CStackAllocator.allocate]
      split
      · split
        · exact ⟨rfl, rfl⟩
        · exact ⟨rfl, rfl⟩
      · exact ⟨rfl, rfl⟩
    simp only [StackUse.step] at hst
    split at hst
    · split at hst
      · cases hst
        exact hkept
      · cases hst
        exact hkept
    · cases hst
  | deallocate ptr =>
    simp only [StackUse.step, CStackAllocator.deallocate] at hst
    split at hst
    · cases hst
      exact ⟨rfl, rfl⟩
    · cases hst
      exact ⟨rfl, rfl⟩
  | reset =>
    cases hst
    exact ⟨rfl, rfl⟩
  | write address byte =>
    simp only [StackUse.step] at hst
    split at hst
    · cases hst
      exact ⟨rfl, rfl⟩
    · cases hst

theorem StackUse.inside_start {capacity buffer : UInt64} {memory : Memory}
    (hroom : buffer.toNat + capacity.toNat < 2 ^ 64) :
    (StackUse.start capacity buffer memory).Inside := by
  refine ⟨?_, Nat.zero_le _, by simp [StackUse.start], fun hnull => absurd rfl hnull⟩
  simp only [StackUse.start, CStackAllocator.create]
  split
  · exact hroom
  · simp only [UInt64.toNat_zero]
    omega

end Stacks

section FreeLists

/-- A call of a free list allocator whose callers ask for anything. They still release
live pointers only and write where they asked for bytes. -/
def Heap.request (h : Heap) : HeapOp → Option (Heap × UInt64)
  | .allocate size alignment =>
    if IsPowerOfTwo alignment then
      (h.allocator.allocate size alignment).map fun result =>
        if result.2 = 0 then ({ h with allocator := result.1 }, 0)
        else (h.allocated result.1 result.2 size alignment, result.2)
    else none
  | .deallocate ptr => h.step (.deallocate ptr)
  | .write address byte => h.step (.write address byte)

def heapRequests : Machine Heap HeapOp UInt64 := ⟨Heap.request⟩

@[simp] theorem heapRequests_step (h : Heap) (op : HeapOp) : heapRequests.step h op = h.request op := rfl

/-- Allocate comes back, and returns null and has no effect, or a range that is free. -/
def Heap.Serves (h : Heap) : HeapOp → Prop
  | .allocate size alignment => ∃ result, h.allocator.allocate size alignment = some result ∧
      (result = (h.allocator, 0) ∨ (result.2 ≠ 0 ∧
        Granted h.allocator.buffer h.allocator.capacity
          (h.live.map fun a => requested a.ptr a.size) size alignment result.2))
  | _ => True

/-- The sum Allocate compares with the size of the block it takes does not wrap. -/
def Heap.SumsHold (h : Heap) : HeapOp → Prop
  | .allocate size alignment => size ≠ 0 →
      ∀ e ∈ firstFit h.allocator.freeBlocks size alignment, requestSum e size alignment < 2 ^ 64
  | _ => True

instance (h : Heap) (op : HeapOp) : Decidable (h.SumsHold op) :=
  match op with
  | .allocate size alignment => inferInstanceAs (Decidable (size ≠ 0 →
      ∀ e ∈ firstFit h.allocator.freeBlocks size alignment, _ < _))
  | .deallocate _ => isTrue trivial
  | .write _ _ => isTrue trivial

variable {h h' : Heap} {s s' : CFreeListAllocator} {es pre post : List Extent} {e : Extent}
  {a : Allocation} {ptr padding : UInt64}

theorem Sound.granted (hs : Sound h (pre ++ e :: post)) (ht : Takes h.allocator pre e post a s') :
    Granted h.allocator.buffer h.allocator.capacity (h.live.map fun b => requested b.ptr b.size)
      a.size a.alignment a.ptr := by
  have hin := hs.inside e (by simp)
  have hplaced := ht.placed
  have hroom := ht.room
  simp only [Extent.stop, Allocation.extent] at hin hroom
  refine ⟨ht.aligned, by omega, by omega, fun f hf x hx hxf => ?_⟩
  obtain ⟨b, hb, rfl⟩ := List.mem_map.mp hf
  have hst := hs.live b hb
  have hstart := hst.start
  have hlow : a.ptr.toNat ≤ x := hx.1
  have hup : x < a.ptr.toNat + a.size.toNat := hx.2
  have hlowb : b.ptr.toNat ≤ x := hxf.1
  have hupb : x < b.ptr.toNat + b.size.toNat := hxf.2
  refine hst.apart x ⟨?_, ?_⟩ ⟨e, by simp, by omega, ?_⟩
  · simp only [Allocation.extent]
    omega
  · simp only [Allocation.extent, Extent.stop]
    omega
  · simp only [Extent.stop]
    omega

theorem Sound.allocated_request (hs : Sound h (pre ++ e :: post))
    (htakes : ∀ absorbed, Takes h.allocator pre e post ⟨ptr, size, padding, alignment, absorbed⟩ s') :
    ∃ es', Sound (h.allocated s' ptr size alignment) es' := by
  have hpadding : headerPaddingField s'.memory ptr = padding := (htakes 0).padding
  simp only [Heap.allocated, hpadding]
  exact ⟨_, hs.allocated (htakes _)⟩

/-- A wrapped sum lets Allocate take a block that is too small for what it hands out. -/
theorem wrapped_not_granted {buffer capacity : UInt64} {live : List Extent} {addr pad : Nat}
    (hroom : buffer.toNat + capacity.toNat < 2 ^ 64) (hle : addr + 16 + pad ≤ 2 ^ 64)
    (hwrap : 2 ^ 64 ≤ 16 + pad + size.toNat) (hptr : ptr.toNat = (addr + 16 + pad) % 2 ^ 64)
    (hnonzero : ptr ≠ 0) :
    ¬ Granted buffer capacity live size alignment ptr := by
  intro hgranted
  have hstop := hgranted.stop
  have hplace : ptr.toNat ≠ 0 := fun hz => hnonzero (UInt64.toNat_inj.mp hz)
  omega

theorem link_tracked (s : CFreeListAllocator) (prevBlock block : UInt64) :
    (s.link prevBlock block).tracked = s.tracked := by
  unfold CFreeListAllocator.link
  split <;> rfl

theorem take_tracked (s : CFreeListAllocator) (prevBlock currentBlock size alignment : UInt64) :
    (s.take prevBlock currentBlock size alignment).tracked = s.tracked.recordAlloc size := by
  simp only [CFreeListAllocator.take, CFreeListAllocator.unlist]
  split
  · rw [link_tracked]
  · rw [link_tracked]

theorem Heap.sumsHold_of_none {size alignment : UInt64} (hfree : h.allocator.freeBlocks = es)
    (hnone : size = 0 ∨ firstFit es size alignment = none) : h.SumsHold (.allocate size alignment) := by
  intro hsize e he
  cases hnone with
  | inl hzero => exact absurd hzero hsize
  | inr hnone =>
    rw [hfree, hnone] at he
    cases he

/-- An Allocate that took a block has an effect, so that it must have granted its range. -/
theorem Heap.granted_of_taken {size alignment prev current : UInt64} (hsize : size ≠ 0)
    (hrun : h.allocator.allocate size alignment = some (h.allocator.take prev current size alignment, ptr))
    (hserves : h.Serves (.allocate size alignment)) :
    ptr ≠ 0 ∧ Granted h.allocator.buffer h.allocator.capacity (h.live.map fun a => requested a.ptr a.size)
      size alignment ptr := by
  obtain ⟨result, hresult, hserved⟩ := hserves
  obtain rfl := Option.some.inj (hrun.symm.trans hresult)
  rcases hserved with hsame | hgranted
  · have htracked := congrArg CFreeListAllocator.tracked (Prod.mk.inj hsame).1
    rw [take_tracked] at htracked
    exact absurd htracked (recordAlloc_ne hsize)
  · exact hgranted

theorem Sound.request_allocate (hs : Sound h es)
    (hst : h.request (.allocate size alignment) = some (h', o)) :
    (h.Serves (.allocate size alignment) ↔ h.SumsHold (.allocate size alignment)) ∧
      (h.SumsHold (.allocate size alignment) → ∃ es', Sound h' es') := by
  have hp : IsPowerOfTwo alignment := by
    by_contra hp
    simp [Heap.request, hp] at hst
  have hfree := hs.freeBlocks
  simp only [Heap.request, hp, if_true] at hst
  rcases hs.allocate_found size hp with ⟨hrun, hnone⟩ | ⟨pre, e, post, prev, current, rfl, hfirst,
    hsize, hprev, hcurrent, hrun, hneed, hfits, hpad, hptr, hle, hdvd⟩
  · have hholds := Heap.sumsHold_of_none hfree hnone
    refine ⟨iff_of_true ⟨_, hrun, .inl rfl⟩ hholds, fun _ => ⟨es, ?_⟩⟩
    simp only [hrun, Option.map_some, if_true, Option.some.injEq, Prod.mk.injEq] at hst
    exact hst.1 ▸ hs
  by_cases hwrap : requestSum e size alignment < 2 ^ 64
  · have hholds : h.SumsHold (.allocate size alignment) := by
      intro _ f hf
      obtain rfl : e = f := by simpa [hfree, hfirst] using hf
      exact hwrap
    have hsums := hholds
    rw [Heap.SumsHold, hfree] at hsums
    rcases hs.allocate_cases hp hsums with hrefused | ⟨pre', e', post', padding, ptr, s', hes, hfirst',
      htaken, _, htakes⟩
    · refine ⟨iff_of_true ⟨_, hrefused, .inl rfl⟩ hholds, fun _ => ⟨pre ++ e :: post, ?_⟩⟩
      simp only [hrefused, Option.map_some, if_true, Option.some.injEq, Prod.mk.injEq] at hst
      exact hst.1 ▸ hs
    · rw [hes] at hs
      have hplaced := (htakes 0).placed
      have hnonzero : ptr ≠ 0 := by
        intro hzero
        simp only [hzero, UInt64.toNat_zero] at hplaced
        omega
      refine ⟨iff_of_true ⟨_, htaken, .inr ⟨hnonzero, hs.granted (htakes 0)⟩⟩ hholds, fun _ => ?_⟩
      simp only [htaken, Option.map_some, hnonzero, if_false, Option.some.injEq, Prod.mk.injEq] at hst
      exact hst.1 ▸ hs.allocated_request htakes
  · have hfails : ¬ h.SumsHold (.allocate size alignment) := by
      intro hholds
      exact hwrap (hholds hsize e (by rw [hfree, hfirst]; rfl))
    refine ⟨iff_of_false ?_ hfails, fun hholds => absurd hholds hfails⟩
    intro hserves
    obtain ⟨hnonzero, hgranted⟩ := Heap.granted_of_taken hsize hrun hserves
    rw [requestSum] at hwrap
    exact wrapped_not_granted hs.room hle (by omega) hptr hnonzero hgranted

theorem Sound.request (hs : Sound h es) {op : HeapOp} (hst : h.request op = some (h', o)) :
    (h.Serves op ↔ h.SumsHold op) ∧ (h.SumsHold op → ∃ es', Sound h' es') := by
  have hkeep (hst : h.step op = some (h', o)) : ∃ es', Sound h' es' := by
    obtain ⟨t, o', es', hst', hs'⟩ := hs.step (Heap.allows_of_step hst)
    obtain ⟨rfl, -⟩ : t = h' ∧ o' = o := by simpa using hst'.symm.trans hst
    exact ⟨es', hs'⟩
  cases op with
  | allocate size alignment => exact hs.request_allocate hst
  | deallocate ptr => exact ⟨Iff.rfl, fun _ => hkeep hst⟩
  | write address byte => exact ⟨Iff.rfl, fun _ => hkeep hst⟩

theorem sound_start_null {capacity buffer : UInt64} {memory : Memory}
    (hroom : buffer.toNat + capacity.toNat < 2 ^ 64) (hnone : capacity = 0 ∨ buffer = 0) :
    Sound (.start capacity buffer memory) [] := by
  have hcreate : CFreeListAllocator.create capacity buffer memory =
      { buffer := 0, capacity, freeList := 0, memory } := by
    cases hnone with
    | inl hcap => simp [CFreeListAllocator.create, hcap]
    | inr hbuf => simp [CFreeListAllocator.create, hbuf]
  simp only [Heap.start, hcreate]
  refine ⟨⟨rfl, trivial⟩, List.Pairwise.nil, by simp, ?_, fun _ => ⟨rfl, rfl⟩, by simp, List.Pairwise.nil⟩
  simp only [UInt64.toNat_zero]
  omega

/-- In a buffer without room for a header only a wrapped sum is ever served. -/
theorem request_small {capacity buffer : UInt64} {memory : Memory} (hbuf : buffer ≠ 0)
    (hcap : capacity ≠ 0) (hsmall : capacity.toNat < 16)
    (hroom : buffer.toNat + capacity.toNat < 2 ^ 64) {op : HeapOp}
    (hst : (Heap.start capacity buffer memory).request op = some (h', o)) :
    ((Heap.start capacity buffer memory).Serves op ↔ (Heap.start capacity buffer memory).SumsHold op) ∧
      ((Heap.start capacity buffer memory).SumsHold op → h' = .start capacity buffer memory) := by
  have hwhole : wholeBuffer capacity buffer = [⟨buffer.toNat, capacity.toNat⟩] := if_neg hcap
  obtain ⟨hlists, hpos, hfuel⟩ :
      ListsBlocks (Heap.start capacity buffer memory).allocator (wholeBuffer capacity buffer) ∧ _ :=
    create_whole (fun _ => hbuf) memory
  have hfree := freeBlocks_eq hlists hpos hfuel
  cases op with
  | deallocate ptr =>
    obtain ⟨a, ha, _⟩ := Heap.allows_of_step hst
    cases ha
  | write address byte =>
    obtain ⟨a, ha, _⟩ := Heap.allows_of_step hst
    cases ha
  | allocate size alignment =>
    have hp : IsPowerOfTwo alignment := by
      by_contra hp
      simp [Heap.request, hp] at hst
    simp only [Heap.request, hp, if_true] at hst
    rcases allocate_run hlists hpos hfuel size alignment with ⟨hrun, hnone⟩ |
      ⟨pre, e, post, prev, current, hes, hfirst, hsize, _, hcurrent, hrun⟩
    · have hholds := Heap.sumsHold_of_none hfree hnone
      refine ⟨iff_of_true ⟨_, hrun, .inl rfl⟩ hholds, fun _ => ?_⟩
      simp only [hrun, Option.map_some, if_true, Option.some.injEq, Prod.mk.injEq] at hst
      exact hst.1.symm
    · have hfits : need e size alignment ≤ e.size := by
        simpa using (List.find?_eq_some_iff_append.mp hfirst).1
      obtain rfl : e = ⟨buffer.toNat, capacity.toNat⟩ := by
        have hmem : e ∈ wholeBuffer capacity buffer := by simp [hes]
        simpa [hwhole] using hmem
      obtain rfl : current = buffer := UInt64.toNat_inj.mp hcurrent
      have hdata : (current + headerSize).toNat = (current.toNat + 16) % 2 ^ 64 := by
        rw [UInt64.toNat_add]
        rfl
      obtain ⟨hpad, hptr, hle, _, htotal⟩ := placement_spec size rfl hp hdata
      rw [need, UInt64.ofNat_toNat, htotal] at hfits
      have hlt := (paddingTo_spec ((current.toNat + 16) % 2 ^ 64) hp.pos).2
      have halign := hp.dvd.2
      rw [← hpad] at hlt
      have hfails : ¬ (Heap.start capacity current memory).SumsHold (.allocate size alignment) := by
        intro hholds
        have hsum := hholds hsize _ (by rw [hfree, hfirst]; rfl)
        rw [requestSum, ← paddingTo_mod _ hp, ← hpad] at hsum
        simp only at hfits
        omega
      refine ⟨iff_of_false ?_ hfails, fun hholds => absurd hholds hfails⟩
      intro hserves
      obtain ⟨hnonzero, hgranted⟩ := Heap.granted_of_taken hsize hrun hserves
      have hcreated : (Heap.start capacity current memory).allocator.buffer = current ∧
          (Heap.start capacity current memory).allocator.capacity = capacity := by
        have hasked : capacity > 0 := UInt64.pos_iff_ne_zero.mpr hcap
        simp [Heap.start, CFreeListAllocator.create, hasked, hbuf]
      have hstart := hgranted.start
      have hstop := hgranted.stop
      have hplace : (placement current size alignment).alignedAddr.toNat ≠ 0 :=
        fun hz => hnonzero (UInt64.toNat_inj.mp hz)
      rw [hcreated.1] at hstart hstop
      rw [hcreated.2] at hstop
      simp only at hstart hstop hfits hplace
      omega

theorem sound_start_large {capacity buffer : UInt64} {memory : Memory}
    (hroom : buffer.toNat + capacity.toNat < 2 ^ 64)
    (hlarge : (capacity = 0 ∨ buffer = 0) ∨ 16 ≤ capacity.toNat) :
    ∃ es, Sound (.start capacity buffer memory) es := by
  cases hlarge with
  | inl hnone => exact ⟨_, sound_start_null hroom hnone⟩
  | inr hlarge => exact sound_start hlarge hroom

end FreeLists

section Runs
variable {capacity buffer : UInt64} {memory : Memory}

/-- In a run of a linear, a stack or a free list allocator each Allocate serves if its
sum holds. In the linear and the free list allocator no other Allocate does, and in the
stack allocator none does unless the end of the buffer is the end of the address space. -/
theorem requests_serve_iff (hroom : buffer.toNat + capacity.toNat < 2 ^ 64) :
    (∀ rs h os, linearCalls.run (.start capacity buffer) rs = some (h, os) →
      (linearCalls.Along Linear.Serves (.start capacity buffer) rs ↔
        linearCalls.Along Linear.SumsHold (.start capacity buffer) rs)) ∧
    (∀ rs h os, stackRequests.run (.start capacity buffer memory) rs = some (h, os) →
      (stackRequests.Along StackUse.SumsHold (.start capacity buffer memory) rs →
        stackRequests.Along StackUse.Serves (.start capacity buffer memory) rs) ∧
      (buffer.toNat + capacity.toNat + 16 < 2 ^ 64 →
        stackRequests.Along StackUse.Serves (.start capacity buffer memory) rs →
        stackRequests.Along StackUse.SumsHold (.start capacity buffer memory) rs)) ∧
    ∀ ops h os, heapRequests.run (.start capacity buffer memory) ops = some (h, os) →
      (heapRequests.Along Heap.Serves (.start capacity buffer memory) ops ↔
        heapRequests.Along Heap.SumsHold (.start capacity buffer memory) ops) := by
  refine ⟨fun rs h os hr => linear_serves_iff hroom hr, fun rs h os hr => ⟨?_, fun hheader => ?_⟩,
    fun ops h os hr => ?_⟩
  · exact Machine.Along.imp StackUse.Inside (fun _ _ _ _ hin hst hholds => hin.step hst hholds)
      (StackUse.inside_start hroom) hr
  · let Reached (h : StackUse) : Prop := h.Inside ∧
      h.allocator.buffer.toNat + h.allocator.capacity.toNat + 16 < 2 ^ 64
    have hstart : Reached (.start capacity buffer memory) := by
      refine ⟨StackUse.inside_start hroom, ?_⟩
      simp only [StackUse.start, CStackAllocator.create]
      split
      · exact hheader
      · simp only [UInt64.toNat_zero]
        omega
    refine (Machine.Along.congr Reached ?_ hstart hr).mp
    intro s r t o hs hst
    obtain ⟨hin, hfits⟩ := hs
    obtain ⟨hbuf, hcap⟩ := StackUse.step_frame hst
    refine ⟨⟨hin.sums_of_serves hst hfits, fun hholds => (hin.step hst hholds).1⟩, fun hholds => ?_⟩
    exact ⟨(hin.step hst hholds).2, by rw [hbuf, hcap]; exact hfits⟩
  · by_cases hlarge : (capacity = 0 ∨ buffer = 0) ∨ 16 ≤ capacity.toNat
    · refine Machine.Along.congr (fun s => ∃ es, Sound s es) ?_ (sound_start_large hroom hlarge) hr
      intro s op t o hs hst
      obtain ⟨es, hs⟩ := hs
      exact hs.request hst
    · obtain ⟨hnone, hsmall⟩ := not_or.mp hlarge
      obtain ⟨hcap, hbuf⟩ := not_or.mp hnone
      refine Machine.Along.congr (fun s => s = .start capacity buffer memory) ?_ rfl hr
      intro s op t o hs hst
      subst hs
      exact request_small hbuf hcap (by omega) hroom hst

end Runs

theorem requests_serve_aligned :
    linearCalls.Along Linear.Serves (.start 256 4096) [.allocate 24 8, .allocate 8 32, .reset,
      .allocate 256 16] ∧
    stackRequests.Along StackUse.Serves (.start 256 4096 fun _ => 0) [.allocate 24 8, .allocate 8 32,
      .write 4160 7, .deallocate 4160, .allocate 300 8] ∧
    heapRequests.Along Heap.Serves (.start 256 4096 fun _ => 0) [.allocate 24 8, .allocate 8 32,
      .deallocate 4112] := by
  have hroom : (4096 : UInt64).toNat + (256 : UInt64).toNat < 2 ^ 64 := by decide
  obtain ⟨hlinear, hstack, hheap⟩ := requests_serve_iff hroom
  have hlinearRun : (linearCalls.run (.start 256 4096) [.allocate 24 8, .allocate 8 32, .reset,
      .allocate 256 16]).isSome = true := by decide +kernel
  have hstackRun : (stackRequests.run (.start 256 4096 fun _ => 0) [.allocate 24 8, .allocate 8 32,
      .write 4160 7, .deallocate 4160, .allocate 300 8]).isSome = true := by decide +kernel
  have hheapRun : (heapRequests.run (.start 256 4096 fun _ => 0) [.allocate 24 8, .allocate 8 32,
      .deallocate 4112]).isSome = true := by decide +kernel
  obtain ⟨_, hlinearRun⟩ := Option.isSome_iff_exists.mp hlinearRun
  obtain ⟨_, hstackRun⟩ := Option.isSome_iff_exists.mp hstackRun
  obtain ⟨_, hheapRun⟩ := Option.isSome_iff_exists.mp hheapRun
  exact ⟨(hlinear _ _ _ hlinearRun).mpr (by decide +kernel),
    (hstack _ _ _ hstackRun).1 (by decide +kernel), (hheap _ _ _ hheapRun).mpr (by decide +kernel)⟩

/-- Close to 2^64 every allocator hands out bytes that it does not have. -/
theorem requests_wrap :
    ¬ linearCalls.Along Linear.Serves (.start 64 4096) [.allocate 16 8, .allocate 0xFFFFFFFFFFFFFFF8 8] ∧
    ¬ stackRequests.Along StackUse.Serves (.start 64 4096 fun _ => 0) [.allocate 0xFFFFFFFFFFFFFFF8 8] ∧
    ¬ heapRequests.Along Heap.Serves (.start 64 4096 fun _ => 0) [.allocate 0xFFFFFFFFFFFFFFF8 8] := by
  refine ⟨fun hserves => ?_, fun hserves => ?_, fun hserves => ?_⟩
  · have hfirst : (Linear.start 64 4096).step (.allocate 16 8) =
        some (⟨⟨4096, 64, 16, ⟨16, 16, 1, 0⟩⟩, [⟨4096, 16⟩]⟩, 4096) := by decide +kernel
    cases (hserves.2 _ hfirst).1 with
    | inl hsame => exact absurd (congrArg Prod.snd hsame) (by decide +kernel)
    | inr hgiven => exact absurd hgiven.2.stop (by decide +kernel)
  · cases hserves.1 with
    | inl hsame => exact absurd (congrArg Prod.snd hsame) (by decide +kernel)
    | inr hgiven => exact absurd hgiven.2.stop (by decide +kernel)
  · have hptr : ((Heap.start 64 4096 fun _ => 0).allocator.allocate 0xFFFFFFFFFFFFFFF8 8).map
        Prod.snd = some 4112 := by decide +kernel
    obtain ⟨result, hresult, hserved⟩ := hserves.1
    rw [hresult, Option.map_some, Option.some.injEq] at hptr
    cases hserved with
    | inl hsame =>
      rw [hsame] at hptr
      exact absurd hptr (by decide)
    | inr hgiven =>
      have hstop := hgiven.2.stop
      rw [hptr] at hstop
      exact absurd hstop (by decide +kernel)

end TgeCore.Memory
