import TgeCore.Memory.Allocation
import TgeCore.Library.Machine

namespace TgeCore.Memory
open Library Library.ByteMemory

/-- CStackAllocator's members, with the bytes its headers are kept in. -/
structure CStackAllocator where
  buffer : UInt64
  capacity : UInt64
  offset : UInt64 := 0
  lastAllocation : UInt64 := 0
  memory : Memory
  tracked : CTrackedAllocator := {}

/-- The constructor, given what malloc returned for a capacity above zero. -/
def CStackAllocator.create (capacity buffer : UInt64) (memory : Memory) : CStackAllocator :=
  { buffer := if capacity > 0 then buffer else 0, capacity, memory }

def CStackAllocator.allocate (s : CStackAllocator) (size alignment : UInt64) :
    CStackAllocator × UInt64 :=
  if size > 0 ∧ s.buffer ≠ 0 then
    let place := placement (s.buffer + s.offset) size alignment
    if s.offset + place.totalSize ≤ s.capacity then
      ({ s with
        memory := storeHeader s.memory place.alignedAddr size place.padding
        lastAllocation := place.alignedAddr
        offset := s.offset + place.totalSize
        tracked := s.tracked.recordAlloc size }, place.alignedAddr)
    else (s, 0)
  else (s, 0)

/-- Only the last allocation is taken back, and after it no allocation is the last. -/
def CStackAllocator.deallocate (s : CStackAllocator) (ptr : UInt64) : CStackAllocator :=
  if ptr = s.lastAllocation ∧ ptr ≠ 0 then
    let totalSize := headerSize + headerPaddingField s.memory ptr + headerSizeField s.memory ptr
    { s with
      offset := s.offset - totalSize
      tracked := s.tracked.recordDealloc (headerSizeField s.memory ptr)
      lastAllocation := 0 }
  else s

def CStackAllocator.reset (s : CStackAllocator) : CStackAllocator :=
  { s with offset := 0, lastAllocation := 0, tracked := { s.tracked with currentUsage := 0 } }

/-- A live allocation, with the offset and the usage right before it was made. -/
structure StackAllocation where
  ptr : UInt64
  size : UInt64
  offset : UInt64
  usage : UInt64
deriving DecidableEq, Repr

/-- A stack allocator in use, the most recent live allocation first. -/
structure Stack where
  allocator : CStackAllocator
  live : List StackAllocation := []

inductive StackOp where
  | allocate (size alignment : UInt64)
  | deallocate
  | write (address : Nat) (byte : UInt8)
deriving DecidableEq

/-- The bytes of the header before a pointer. -/
def InHeader (ptr : UInt64) (address : Nat) : Prop :=
  ((ptr - headerSize).toNat ≤ address ∧ address < (ptr - headerSize).toNat + 8) ∨
    ((ptr - headerSize + 8).toNat ≤ address ∧ address < (ptr - headerSize + 8).toNat + 8)

instance (ptr : UInt64) (address : Nat) : Decidable (InHeader ptr address) :=
  inferInstanceAs (Decidable (_ ∨ _))

/-- One call, and the pointer it returns: an Allocate that succeeds, a Deallocate of
the most recent live allocation, or a byte written outside of the live headers. -/
def Stack.step (h : Stack) : StackOp → Option (Stack × UInt64)
  | .allocate size alignment =>
    let result := h.allocator.allocate size alignment
    if result.2 = 0 then none
    else some (⟨result.1, ⟨result.2, size, h.allocator.offset, h.allocator.tracked.currentUsage⟩ ::
      h.live⟩, result.2)
  | .deallocate =>
    match h.live with
    | [] => none
    | a :: rest => some (⟨h.allocator.deallocate a.ptr, rest⟩, 0)
  | .write address byte =>
    if ∀ a ∈ h.live, ¬ InHeader a.ptr address then
      some ({ h with allocator := { h.allocator with
        memory := Function.update h.allocator.memory address byte } }, 0)
    else none

def stackCalls : Machine Stack StackOp UInt64 := ⟨Stack.step⟩

@[simp] theorem stackCalls_step (h : Stack) (op : StackOp) : stackCalls.step h op = h.step op := rfl

def Stack.start (capacity buffer : UInt64) (memory : Memory) : Stack :=
  { allocator := .create capacity buffer memory }

/-- A Deallocate takes the offset and the usage back to what they were right
before its allocation was made. -/
def Stack.Restores (h : Stack) : StackOp → Prop
  | .deallocate => ∀ a ∈ h.live.head?, (h.allocator.deallocate a.ptr).offset = a.offset ∧
      (h.allocator.deallocate a.ptr).tracked.currentUsage = a.usage
  | _ => True

instance (h : Stack) (op : StackOp) : Decidable (h.Restores op) :=
  match op with
  | .allocate _ _ => isTrue trivial
  | .deallocate => inferInstanceAs (Decidable (∀ a ∈ h.live.head?, _ ∧ _))
  | .write _ _ => isTrue trivial

/-- Nothing tells the two allocators apart but bytes and the totals. -/
structure AsNew (s new : CStackAllocator) : Prop where
  buffer : s.buffer = new.buffer
  capacity : s.capacity = new.capacity
  offset : s.offset = new.offset
  lastAllocation : s.lastAllocation = new.lastAllocation
  usage : s.tracked.currentUsage = new.tracked.currentUsage

/-- Whether the last call other than a write was a Deallocate. -/
def releasedAfter (released : Bool) : StackOp → Bool
  | .allocate _ _ => false
  | .deallocate => true
  | .write _ _ => released

/-- No Deallocate comes right after another one. -/
def NoDoubleRelease : Bool → List StackOp → Prop
  | _, [] => True
  | released, op :: ops => (op = .deallocate → released = false) ∧
      NoDoubleRelease (releasedAfter released op) ops

/-- The usage is made up of the live allocations' sizes, and the first of them was
made on an empty stack. -/
def Chained : UInt64 → UInt64 → List StackAllocation → Prop
  | offset, usage, [] => offset = 0 ∧ usage = 0
  | _, usage, a :: rest => usage = a.usage + a.size ∧ a.size ≠ 0 ∧ a.ptr ≠ 0 ∧
      Chained a.offset a.usage rest

/-- The invariant of a stack whose Deallocates have all taken effect. -/
structure Nested (new : CStackAllocator) (released : Bool) (h : Stack) : Prop where
  buffer : h.allocator.buffer = new.buffer
  capacity : h.allocator.capacity = new.capacity
  chained : Chained h.allocator.offset h.allocator.tracked.currentUsage h.live
  top : released = false → ∀ a ∈ h.live.head?, h.allocator.lastAllocation = a.ptr ∧
    headerSizeField h.allocator.memory a.ptr = a.size ∧
    h.allocator.offset = a.offset + (headerSize + headerPaddingField h.allocator.memory a.ptr + a.size)
  marker : released = true ∨ h.live = [] → h.allocator.lastAllocation = 0

variable {h h' : Stack} {new : CStackAllocator} {released : Bool} {op : StackOp} {o : UInt64}

theorem Nested.allocate (hn : Nested new released h) {size alignment : UInt64}
    (hst : h.step (.allocate size alignment) = some (h', o)) : Nested new false h' := by
  simp only [Stack.step, CStackAllocator.allocate] at hst
  split at hst
  · rename_i hok
    generalize hplace : placement (h.allocator.buffer + h.allocator.offset) size alignment = place at hst
    split at hst
    · split at hst
      · cases hst
      · rename_i _ hptr
        simp only [Option.some.injEq, Prod.mk.injEq] at hst
        obtain ⟨rfl, rfl⟩ := hst
        have htotal : place.totalSize = headerSize + place.padding + size := by
          rw [← hplace]
          rfl
        refine ⟨hn.buffer, hn.capacity, ⟨rfl, UInt64.pos_iff_ne_zero.mp hok.1, hptr, hn.chained⟩, ?_,
          by simp⟩
        intro _ a ha
        simp only [List.head?_cons, Option.mem_def, Option.some.injEq] at ha
        subst ha
        refine ⟨rfl, headerSizeField_storeHeader .., ?_⟩
        simp only [headerPaddingField_storeHeader, htotal]
    · simp at hst
  · simp at hst

/-- The last allocation is taken back exactly. -/
theorem Nested.deallocate (hn : Nested new false h) (hst : h.step .deallocate = some (h', o)) :
    h.Restores .deallocate ∧ Nested new true h' := by
  obtain ⟨s, live⟩ := h
  cases live with
  | nil => simp [Stack.step] at hst
  | cons a rest =>
    obtain ⟨hlast, hsize, hoffset⟩ := hn.top rfl a rfl
    obtain ⟨husage, _, hptr, hchained⟩ := hn.chained
    simp only at hlast hsize hoffset husage
    have hrun : s.deallocate a.ptr = { s with
        offset := a.offset, tracked := s.tracked.recordDealloc a.size, lastAllocation := 0 } := by
      have hback : s.offset - (headerSize + headerPaddingField s.memory a.ptr + a.size) = a.offset := by
        rw [hoffset, UInt64.add_sub_cancel]
      simp only [CStackAllocator.deallocate, hlast, hptr, hsize, hback, ne_eq, not_false_iff, and_self,
        if_true]
    have hused : s.tracked.currentUsage - a.size = a.usage := by rw [husage, UInt64.add_sub_cancel]
    simp only [Stack.step, Option.some.injEq, Prod.mk.injEq] at hst
    obtain ⟨rfl, rfl⟩ := hst
    constructor
    · intro b hb
      simp only [List.head?_cons, Option.mem_def, Option.some.injEq] at hb
      subst hb
      rw [hrun]
      exact ⟨rfl, hused⟩
    · rw [hrun]
      refine ⟨hn.buffer, hn.capacity, ?_, by simp, by simp⟩
      change Chained a.offset (s.tracked.currentUsage - a.size) rest
      rw [hused]
      exact hchained

/-- Right after a Deallocate another one has no effect, though the allocation it
was called for still counts. -/
theorem Nested.not_restores (hn : Nested new true h) (hst : h.step .deallocate = some (h', o)) :
    ¬ h.Restores .deallocate := by
  obtain ⟨s, live⟩ := h
  cases live with
  | nil => simp [Stack.step] at hst
  | cons a rest =>
    obtain ⟨husage, hsize, hptr, _⟩ := hn.chained
    have hlast : s.lastAllocation = 0 := hn.marker (.inl rfl)
    have hrun : s.deallocate a.ptr = s := by simp [CStackAllocator.deallocate, hlast, hptr]
    intro hrestores
    have hsame := (hrestores a rfl).2
    simp only [hrun] at hsame
    rw [husage] at hsame
    exact hsize (by simpa using hsame)

theorem Nested.write (hn : Nested new released h) {address : Nat} {byte : UInt8}
    (hst : h.step (.write address byte) = some (h', o)) : Nested new released h' := by
  simp only [Stack.step] at hst
  split at hst
  · rename_i hout
    simp only [Option.some.injEq, Prod.mk.injEq] at hst
    obtain ⟨rfl, rfl⟩ := hst
    refine ⟨hn.buffer, hn.capacity, hn.chained, fun hfresh a ha => ?_, hn.marker⟩
    obtain ⟨hlast, hsize, hoffset⟩ := hn.top hfresh a ha
    have hheader := hout a (List.mem_of_mem_head? ha)
    have hsame : ∀ i, InHeader a.ptr i →
        Function.update h.allocator.memory address byte i = h.allocator.memory i :=
      fun i hi => Function.update_of_ne (by rintro rfl; exact hheader hi) _ _
    have hsizeField : headerSizeField (Function.update h.allocator.memory address byte) a.ptr =
        headerSizeField h.allocator.memory a.ptr :=
      load64_congr fun i hl hu => hsame i (.inl ⟨hl, hu⟩)
    have hpaddingField : headerPaddingField (Function.update h.allocator.memory address byte) a.ptr =
        headerPaddingField h.allocator.memory a.ptr :=
      load64_congr fun i hl hu => hsame i (.inr ⟨hl, hu⟩)
    exact ⟨hlast, hsizeField.trans hsize, by rw [hpaddingField]; exact hoffset⟩
  · cases hst

theorem Nested.step (hn : Nested new released h) (hgood : op = .deallocate → released = false)
    (hst : h.step op = some (h', o)) : h.Restores op ∧ Nested new (releasedAfter released op) h' := by
  cases op with
  | allocate size alignment => exact ⟨trivial, hn.allocate hst⟩
  | deallocate =>
    obtain rfl := hgood rfl
    exact hn.deallocate hst
  | write address byte => exact ⟨trivial, hn.write hst⟩

/-- Every Deallocate of a run takes effect exactly if none follows another. -/
theorem Nested.along_iff (hn : Nested new released h) {ops : List StackOp} {os : List UInt64}
    (hr : stackCalls.run h ops = some (h', os)) :
    (stackCalls.Along Stack.Restores h ops ↔ NoDoubleRelease released ops) ∧
      (NoDoubleRelease released ops → ∃ last, Nested new last h') := by
  induction ops generalizing h released os with
  | nil =>
    obtain ⟨rfl, rfl⟩ : h = h' ∧ [] = os := by simpa [Machine.run] using hr
    exact ⟨Iff.rfl, fun _ => ⟨released, hn⟩⟩
  | cons op ops ih =>
    obtain ⟨t, o, os', hst, hrest, rfl⟩ := Machine.run_cons_eq_some.mp hr
    rw [stackCalls_step] at hst
    have hnext (P : Stack × UInt64 → Prop) : (∀ next ∈ stackCalls.step h op, P next) ↔ P (t, o) := by
      rw [stackCalls_step, hst]
      simp
    by_cases hgood : op = .deallocate → released = false
    · obtain ⟨hrestores, hnested⟩ := hn.step hgood hst
      obtain ⟨hiff, hend⟩ := ih hnested hrest
      refine ⟨?_, fun hnone => hend hnone.2⟩
      rw [Machine.Along, NoDoubleRelease, hnext, hiff]
      exact and_congr_left fun _ => iff_of_true hrestores hgood
    · obtain ⟨rfl, hreleased⟩ : op = .deallocate ∧ released = true := by simpa using hgood
      rw [hreleased] at hn
      have hbad := hn.not_restores hst
      exact ⟨iff_of_false (fun ha => hbad ha.1) fun hnone => hgood hnone.1,
        fun hnone => absurd hnone.1 hgood⟩

section Runs
variable {capacity buffer : UInt64} {memory : Memory}

theorem nested_start : Nested (.create capacity buffer memory) false (.start capacity buffer memory) :=
  ⟨rfl, rfl, ⟨rfl, rfl⟩, by simp [Stack.start], fun _ => rfl⟩

/-- In a run of successful Allocates and of Deallocates of the most recent live
allocation, every Deallocate takes effect, and the allocator is as new once nothing
is live, exactly if no Deallocate follows another. -/
theorem stackCalls_restore_iff {ops : List StackOp} {os : List UInt64}
    (hr : stackCalls.run (.start capacity buffer memory) ops = some (h, os)) :
    (stackCalls.Along Stack.Restores (.start capacity buffer memory) ops ∧
      (h.live = [] → AsNew h.allocator (.create capacity buffer memory))) ↔
    NoDoubleRelease false ops := by
  obtain ⟨hiff, hend⟩ := nested_start.along_iff hr
  constructor
  · exact fun hall => hiff.mp hall.1
  · refine fun hnone => ⟨hiff.mpr hnone, fun hlive => ?_⟩
    obtain ⟨last, hnested⟩ := hend hnone
    have hchained := hnested.chained
    rw [hlive] at hchained
    exact ⟨hnested.buffer, hnested.capacity, hchained.1, hnested.marker (.inr hlive), hchained.2⟩

end Runs

theorem stackCalls_restore_once : ∃ h os,
    stackCalls.run (.start 256 4096 fun _ => 0) [.allocate 8 8, .write 4112 7, .deallocate,
      .allocate 4 32, .deallocate] = some (h, os) ∧
    (stackCalls.Along Stack.Restores (.start 256 4096 fun _ => 0) [.allocate 8 8, .write 4112 7,
      .deallocate, .allocate 4 32, .deallocate] ∧
      (h.live = [] → AsNew h.allocator (.create 256 4096 fun _ => 0))) := by
  have hrun : (stackCalls.run (.start 256 4096 fun _ => 0) [.allocate 8 8, .write 4112 7, .deallocate,
      .allocate 4 32, .deallocate]).isSome = true := by decide +kernel
  obtain ⟨⟨h, os⟩, hr⟩ := Option.isSome_iff_exists.mp hrun
  exact ⟨h, os, hr, (stackCalls_restore_iff hr).mpr (by simp [NoDoubleRelease, releasedAfter])⟩

/-- Of two nested allocations only the inner one is taken back. -/
theorem stackCalls_keep_outer : ∃ h os,
    stackCalls.run (.start 256 4096 fun _ => 0) [.allocate 8 8, .allocate 8 8, .deallocate,
      .deallocate] = some (h, os) ∧
    ¬ stackCalls.Along Stack.Restores (.start 256 4096 fun _ => 0) [.allocate 8 8, .allocate 8 8,
      .deallocate, .deallocate] ∧
    h.live = [] ∧ h.allocator.offset = 24 ∧ h.allocator.tracked.currentUsage = 8 := by
  have hrun : (stackCalls.run (.start 256 4096 fun _ => 0) [.allocate 8 8, .allocate 8 8, .deallocate,
      .deallocate]).map (fun r => (r.1.live, r.1.allocator.offset, r.1.allocator.tracked.currentUsage)) =
      some ([], 24, 8) := by decide +kernel
  obtain ⟨⟨h, os⟩, hr, hout⟩ := Option.map_eq_some_iff.mp hrun
  simp only [Prod.mk.injEq] at hout
  exact ⟨h, os, hr, by decide +kernel, hout⟩

end TgeCore.Memory
