import Mathlib.Data.List.Pairwise
import TgeCore.Memory.FreeListRuns

namespace TgeCore.Memory
open Library Library.ByteMemory Library.Extents

variable {h : Heap} {s s' : CFreeListAllocator} {es pre post : List Extent} {e : Extent}
  {a b : Allocation} {size alignment ptr : UInt64}

/-- An allocation has been carved out of the front of a free block. -/
structure Takes (s : CFreeListAllocator) (pre : List Extent) (e : Extent) (post : List Extent)
    (a : Allocation) (s' : CFreeListAllocator) : Prop extends
    Relists s s' (pre ++ e :: post) (pre ++ (remainder e a.extent.size ++ post)) where
  placed : a.ptr.toNat = e.addr + 16 + a.padding.toNat
  room : a.extent.size ≤ e.size
  requested : 0 < a.size.toNat
  aligned : a.alignment.toNat ∣ a.ptr.toNat
  size : headerSizeField s'.memory a.ptr = a.size
  padding : headerPaddingField s'.memory a.ptr = a.padding

/-- What Allocate needs of a free block, in numbers that do not wrap. -/
def requestSum (e : Extent) (size alignment : UInt64) : Nat :=
  16 + paddingTo (e.addr + 16) alignment.toNat + size.toNat

/-- Allocate leaves the heap alone, or takes the first block that seems to fit. -/
theorem Sound.allocate_found (hs : Sound h es) (size : UInt64) (hp : IsPowerOfTwo alignment) :
    (h.allocator.allocate size alignment = some (h.allocator, 0) ∧
      (size = 0 ∨ firstFit es size alignment = none)) ∨
    ∃ pre e post prev current, es = pre ++ e :: post ∧ firstFit es size alignment = some e ∧ size ≠ 0 ∧
      prev.toNat = lastOr pre 0 ∧ current.toNat = e.addr ∧
      h.allocator.allocate size alignment = some (h.allocator.take prev current size alignment,
        (placement current size alignment).alignedAddr) ∧
      need e size alignment = requestSum e size alignment % 2 ^ 64 ∧ need e size alignment ≤ e.size ∧
      (placement current size alignment).padding.toNat = paddingTo (e.addr + 16) alignment.toNat ∧
      (placement current size alignment).alignedAddr.toNat =
        (e.addr + 16 + paddingTo (e.addr + 16) alignment.toNat) % 2 ^ 64 ∧
      e.addr + 16 + paddingTo (e.addr + 16) alignment.toNat ≤ 2 ^ 64 ∧
      alignment.toNat ∣ e.addr + 16 + paddingTo (e.addr + 16) alignment.toNat := by
  rcases allocate_run hs.lists hs.positive hs.fuel size alignment with hnone |
    ⟨pre, e, post, prev, current, rfl, hfirst, hsize, hprev, hcurrent, hrun⟩
  · exact .inl hnone
  have hcur : UInt64.ofNat e.addr = current := by rw [← hcurrent, UInt64.ofNat_toNat]
  have hfits : need e size alignment ≤ e.size := by
    simpa using (List.find?_eq_some_iff_append.mp hfirst).1
  have hin := hs.inside e (by simp)
  have hroom := hs.room
  have hdata : (current + headerSize).toNat = e.addr + 16 := by
    have hstop := hin.2.1
    simp only [Extent.stop] at hstop
    rw [UInt64.toNat_add, hcurrent]
    change (e.addr + 16) % 2 ^ 64 = _
    omega
  obtain ⟨hpad, hptr, hle, hdvd, htotal⟩ := placement_spec size rfl hp hdata
  rw [hpad] at hptr hle hdvd htotal
  exact .inr ⟨pre, e, post, prev, current, rfl, hfirst, hsize, hprev, hcurrent, hrun,
    by rw [need, hcur, htotal, requestSum], hfits, hpad, hptr, hle, hdvd⟩

/-- Allocate leaves the heap alone, or takes what it needs from the first block that fits. -/
theorem Sound.allocate_cases (hs : Sound h es) (hp : IsPowerOfTwo alignment)
    (hw : size ≠ 0 → ∀ e ∈ firstFit es size alignment, requestSum e size alignment < 2 ^ 64) :
    (h.allocator.allocate size alignment = some (h.allocator, 0)) ∨
    ∃ pre e post padding ptr s', es = pre ++ e :: post ∧ firstFit es size alignment = some e ∧
      h.allocator.allocate size alignment = some (s', ptr) ∧
      need e size alignment = 16 + padding.toNat + size.toNat ∧
      ∀ absorbed, Takes h.allocator pre e post ⟨ptr, size, padding, alignment, absorbed⟩ s' := by
  rcases hs.allocate_found size hp with ⟨hrun, _⟩ | ⟨pre, e, post, prev, current, rfl, hfirst,
    hsize, hprev, hcurrent, hrun, hneed, hfits, hpad, hptr, hle, hdvd⟩
  · exact .inl hrun
  have hpos : 0 < h.allocator.buffer.toNat := by
    refine toNat_pos fun hb => ?_
    have := (hs.buffer hb).1
    simp at this
  have hsum := hw hsize e hfirst
  rw [Nat.mod_eq_of_lt hsum] at hneed
  have hcur : UInt64.ofNat e.addr = current := by rw [← hcurrent, UInt64.ofNat_toNat]
  generalize hplace : placement current size alignment = p at hrun hpad hptr
  have htotal : p.totalSize.toNat = 16 + p.padding.toNat + size.toNat := by
    rw [need, hcur, hplace, requestSum, ← hpad] at hneed
    exact hneed
  rw [requestSum, ← hpad] at hneed
  have haddr : p.alignedAddr.toNat = e.addr + 16 + p.padding.toNat := by
    have hin := (hs.inside e (by simp)).2.1
    have hroom := hs.room
    simp only [Extent.stop] at hin
    rw [hptr, ← hpad]
    omega
  obtain ⟨hrelists, hsizeField, hpaddingField, _⟩ := take_spec hpos hs.room hs.blocks
    hs.lists hprev hcurrent hplace (toNat_pos hsize) haddr htotal (by omega) rfl
  have hextent (absorbed : Nat) : (Allocation.extent ⟨p.alignedAddr, size, p.padding, alignment,
      absorbed⟩).size = p.totalSize.toNat := htotal.symm
  refine .inr ⟨pre, e, post, p.padding, p.alignedAddr, _, rfl, hfirst, hrun, hneed,
    fun absorbed => ⟨?_, haddr, ?_, toNat_pos hsize, ?_, hsizeField, hpaddingField⟩⟩
  · rw [hextent]
    exact hrelists
  · rw [hextent]
    omega
  · rw [haddr, hpad]
    exact hdvd

theorem spaced_remainder (need : Nat) (hs : Spaced (pre ++ e :: post)) :
    Spaced (pre ++ (remainder e need ++ post)) := by
  unfold remainder
  split
  · refine spaced_shrink hs (f := ⟨e.addr + need, e.size - need⟩) ?_ ?_
    · simp
    · simp only [Extent.stop]
      omega
  · exact spaced_remove hs

theorem remainder_inside {lo hi : Nat} (need : Nat)
    (hin : ∀ f ∈ pre ++ e :: post, lo ≤ f.addr ∧ f.stop ≤ hi ∧ 16 ≤ f.size) :
    ∀ f ∈ pre ++ (remainder e need ++ post), lo ≤ f.addr ∧ f.stop ≤ hi ∧ 16 ≤ f.size := by
  intro f hf
  rcases List.mem_append.mp hf with hf | hf
  · exact hin f (by simp [hf])
  · rcases List.mem_append.mp hf with hf | hf
    · obtain ⟨rfl, hlarge⟩ := remainder_mem hf
      have he := hin e (by simp)
      simp only [Extent.stop] at he ⊢
      omega
    · exact hin f (by simp [hf])

section Allocated
variable (ht : Takes s pre e post a s')
include ht

theorem Takes.extent_addr : a.extent.addr = e.addr := by
  have := ht.placed
  simp only [Allocation.extent]
  omega

/-- The bytes taken are no longer free, and nothing else has become free. -/
theorem Takes.covers (ho : Ordered (pre ++ e :: post)) {x : Nat}
    (hx : Covers (pre ++ (remainder e a.extent.size ++ post)) x) :
    Covers (pre ++ e :: post) x ∧ ¬ a.extent.Has x := by
  obtain ⟨_, hepost, hcross⟩ := List.pairwise_append.mp ho
  have haddr := ht.extent_addr
  have hroom := ht.room
  obtain ⟨f, hf, hlow, hup⟩ := hx
  rcases List.mem_append.mp hf with hf | hf
  · have := hcross f hf e (by simp)
    exact ⟨⟨f, by simp [hf], hlow, hup⟩, fun hh => by have := hh.1; omega⟩
  · rcases List.mem_append.mp hf with hf | hf
    · obtain ⟨rfl, _⟩ := remainder_mem hf
      simp only [Extent.stop] at hlow hup
      refine ⟨⟨e, by simp, by omega, by simp only [Extent.stop]; omega⟩, fun hh => ?_⟩
      have := hh.2
      simp only [Extent.stop] at this
      omega
    · have := (List.pairwise_cons.mp hepost).1 f hf
      refine ⟨⟨f, by simp [hf], hlow, hup⟩, fun hh => ?_⟩
      have := hh.2
      simp only [Extent.stop] at *
      omega

theorem Takes.has {x : Nat} (hx : a.extent.Has x) : Covers (pre ++ e :: post) x := by
  have haddr := ht.extent_addr
  have hroom := ht.room
  obtain ⟨hlow, hup⟩ := hx
  refine ⟨e, by simp, by omega, ?_⟩
  simp only [Extent.stop] at hup ⊢
  omega

end Allocated

theorem Sound.allocated (hs : Sound h (pre ++ e :: post)) (ht : Takes h.allocator pre e post a s') :
    Sound { h with allocator := s', live := a :: h.live }
      (pre ++ (remainder e a.extent.size ++ post)) := by
  have ho := hs.spaced.ordered
  refine ⟨ht.lists, spaced_remainder _ hs.spaced, ?_, ?_, ?_, ?_, ?_⟩
  · simp only [ht.buffer, ht.capacity]
    exact remainder_inside _ hs.inside
  · simp only [ht.buffer, ht.capacity]
    exact hs.room
  · intro hb
    have := (hs.buffer (ht.buffer ▸ hb)).1
    simp at this
  · intro b hb
    rcases List.mem_cons.mp hb with rfl | hb
    · have hin := hs.inside e (by simp)
      have haddr := ht.extent_addr
      have hroom := ht.room
      refine ⟨by have := ht.placed; omega, ?_, ht.requested, ht.size, ht.padding, ht.aligned,
        fun x hx hc => (ht.covers ho hc).2 hx⟩
      rw [ht.buffer, ht.capacity]
      simp only [Extent.stop] at hin ⊢
      omega
    · have hst := hs.live b hb
      exact hst.congr (fun i hi _ => (ht.frame i (hst.apart i hi)).symm) ht.buffer ht.capacity
        (fun x hx hc => hst.apart x hx (ht.covers ho hc).1)
  · exact List.pairwise_cons.mpr ⟨fun b hb x hx hxb => (hs.live b hb).apart x hxb (ht.has hx), hs.apart⟩

/-- Two live allocations never have the same pointer. -/
theorem Sound.ptr_injective (hs : Sound h es) : h.live.Pairwise (fun a b => a.ptr ≠ b.ptr) := by
  refine List.Pairwise.imp_of_mem (fun {a b} ha hb hab hptr => ?_) hs.apart
  have haddr := (hs.live a ha).extent_addr
  have hbddr := (hs.live b hb).extent_addr
  rw [← hptr] at hbddr
  refine hab (a.ptr.toNat - 1) ⟨by omega, ?_⟩ ⟨by omega, ?_⟩
  · simp only [Extent.stop, Allocation.extent] at *
    omega
  · simp only [Extent.stop, Allocation.extent] at *
    omega

theorem Sound.apart_of_ptr (hs : Sound h es) (ha : a ∈ h.live) (hb : b ∈ h.live) (hne : b.ptr ≠ a.ptr) :
    Apart a.extent b.extent := by
  have : Std.Symm (fun a b : Allocation => Apart a.extent b.extent) :=
    ⟨fun _ _ hab x hx hx' => hab x hx' hx⟩
  exact hs.apart.forall ha hb fun he => hne (congrArg Allocation.ptr he.symm)

theorem covers_given (new : Extent) (es : List Extent) (x : Nat) :
    Covers (coalesce (insertSorted new es)) x ↔ Covers (new :: es) x := by
  rw [covers_coalesce, covers_perm (insertSorted_perm new es)]

theorem total_given (new : Extent) (es : List Extent) :
    total (coalesce (insertSorted new es)) = new.size + total es := by
  rw [total_coalesce, total_perm (insertSorted_perm new es), total_cons]

/-- Deallocate of a live pointer gives its extent back. -/
theorem Sound.released (hs : Sound h es) (ha : a ∈ h.live) :
    ∃ s' recorded, h.allocator.deallocate a.ptr = some s' ∧
      s'.buffer = h.allocator.buffer ∧ s'.capacity = h.allocator.capacity ∧
      Sound (h.released s' a.ptr) (coalesce (insertSorted a.extent es)) ∧
      s'.tracked = h.allocator.tracked.recordDealloc recorded ∧
      (16 ≤ a.padding.toNat → recorded = a.size) ∧ (a.padding = 0 → recorded.toNat = a.extent.size) := by
  have hst := hs.live a ha
  have hb : h.allocator.buffer ≠ 0 := fun hb => by
    have := (hs.buffer hb).2
    simp [this] at ha
  obtain ⟨s', recorded, hrun, ⟨hlists, hframe, hbuf, hcap⟩, hrecorded⟩ := deallocate_spec (toNat_pos hb) hs.room hs.blocks
    hs.lists hb hs.fuel hst.inside hst.apart hst.size hst.padding hst.extent_addr rfl
  have hlarge : 16 ≤ a.extent.size := by
    simp only [Allocation.extent]
    omega
  have hblocks := insertSorted_blocks hs.blocks ⟨hst.inside.1, hst.inside.2, hlarge⟩ hst.apart
  refine ⟨s', recorded, hrun, hbuf, hcap, ⟨hlists, spaced_coalesce hblocks.ordered, ?_, ?_, ?_, ?_, ?_⟩,
    hrecorded⟩
  · simp only [Heap.released, hbuf, hcap]
    exact coalesce_bounds hblocks.inside
  · simp only [Heap.released, hbuf, hcap]
    exact hs.room
  · exact fun hnull => absurd (hbuf ▸ hnull) hb
  · intro b hbl
    obtain ⟨hbl, hne⟩ := List.mem_filter.mp hbl
    have hapart := hs.apart_of_ptr ha hbl (by simpa using hne)
    have hstb := hs.live b hbl
    have hout : ∀ x, b.extent.Has x → ¬ Covers (a.extent :: es) x := by
      intro x hx hc
      rcases (covers_cons x).mp hc with hh | hc
      · exact hapart x hh hx
      · exact hstb.apart x hx hc
    refine hstb.congr (fun i hi _ => (hframe i (hout i hi)).symm) hbuf hcap fun x hx hc => ?_
    exact hout x hx ((covers_given _ _ x).mp hc)
  · exact hs.apart.sublist List.filter_sublist

/-- Owners may write what they asked for. -/
theorem Sound.written (hs : Sound h es) (ha : a ∈ h.live) {address : Nat}
    (hl : a.ptr.toNat ≤ address) (hu : address < a.ptr.toNat + a.size.toNat) (byte : UInt8) :
    Sound { h with allocator := { h.allocator with
      memory := Function.update h.allocator.memory address byte } } es := by
  have hst := hs.live a ha
  have haddr := hst.extent_addr
  have hhas : a.extent.Has address := by
    refine ⟨by omega, ?_⟩
    simp only [Extent.stop, Allocation.extent] at *
    omega
  have hframe : ∀ i, i ≠ address →
      Function.update h.allocator.memory address byte i = h.allocator.memory i :=
    fun i hi => Function.update_of_ne hi _ _
  refine ⟨⟨hs.lists.head, ?_⟩, hs.spaced, hs.inside, hs.room, hs.buffer, ?_, hs.apart⟩
  · refine linked_congr (fun e he i hlow hup => (hframe i ?_).symm) hs.lists.linked
    rintro rfl
    have := (hs.inside e he).2.2
    exact hst.apart i hhas ⟨e, he, hlow, by simp only [Extent.stop]; omega⟩
  · intro b hb
    have hstb := hs.live b hb
    refine hstb.congr (fun i hi hbelow => (hframe i ?_).symm) rfl rfl hstb.apart
    rintro rfl
    by_cases hptr : b.ptr = a.ptr
    · rw [hptr] at hbelow
      omega
    · exact hs.apart_of_ptr ha hb hptr i hhas hi

/-- The bytes of a block that neither an allocation's extent nor the rest of the list gets. -/
def absorbedBy (e : Extent) (need : Nat) : Nat := e.size - need - total (remainder e need)

/-- Taking a block costs the list what the allocation is given and what it absorbs. -/
theorem total_remainder (pre post : List Extent) {need : Nat} (hroom : need ≤ e.size) :
    total (pre ++ e :: post) = total (pre ++ (remainder e need ++ post)) + need +
      absorbedBy e need := by
  unfold absorbedBy remainder
  split
  · simp only [total_append, total_cons, total_nil]
    omega
  · simp only [total_append, total_cons, total_nil]
    omega

theorem Sound.step_allocate (hs : Sound h (pre ++ e :: post)) {padding : UInt64}
    (hop : h.Allows (.allocate size alignment))
    (hrun : h.allocator.allocate size alignment = some (s', ptr))
    (htakes : ∀ absorbed, Takes h.allocator pre e post ⟨ptr, size, padding, alignment, absorbed⟩ s') :
    h.step (.allocate size alignment) = some ({ h with
      allocator := s'
      live := ⟨ptr, size, padding, alignment, absorbedBy e (16 + padding.toNat + size.toNat)⟩ :: h.live },
      ptr) := by
  have htake := htakes 0
  have hptr : ptr ≠ 0 := by
    rintro rfl
    have := htake.placed
    simp only [UInt64.toNat_zero] at this
    omega
  have hsize : (Allocation.extent ⟨ptr, size, padding, alignment, 0⟩).size =
      16 + padding.toNat + size.toNat := rfl
  have hafter : s'.freeBlocks = pre ++ (remainder e (16 + padding.toNat + size.toNat) ++ post) :=
    (hs.allocated htake).freeBlocks
  have habsorbed : total h.allocator.freeBlocks - total s'.freeBlocks -
      (16 + padding.toNat + size.toNat) = absorbedBy e (16 + padding.toNat + size.toNat) := by
    rw [hs.freeBlocks, hafter, total_remainder pre post (hsize ▸ htake.room)]
    omega
  simp only [Heap.step, hop, if_true, hrun, Option.map_some, hptr, if_false, Heap.allocated,
    htake.padding, habsorbed]

/-- Where the arithmetic does not wrap at any free block, neither does the sum. -/
theorem Sound.sum_of_noWrap (hs : Sound h es) (hop : h.Allows (.allocate size alignment)) :
    size ≠ 0 → ∀ e ∈ firstFit es size alignment, requestSum e size alignment < 2 ^ 64 := by
  intro hsize e hfirst
  obtain ⟨hp, hw⟩ := hop
  have hmem := List.mem_of_find?_eq_some hfirst
  obtain ⟨hwrap, hsum⟩ := hw e (hs.freeBlocks ▸ hmem)
  have hpos := hp.pos
  have hdata : (UInt64.ofNat e.addr + headerSize).toNat = e.addr + 16 := by
    have haddr : e.addr < UInt64.size := by
      change e.addr < 2 ^ 64
      omega
    rw [UInt64.toNat_add, UInt64.toNat_ofNat_of_lt' haddr]
    change (e.addr + 16) % 2 ^ 64 = _
    omega
  rw [(placement_spec size rfl hp hdata).1] at hsum
  exact hsum

/-- What a call does: it leaves the blocks as they are, takes an allocation from
the first block that fits, or gives one back. -/
theorem Sound.step_cases (hs : Sound h es) {op : HeapOp} (hop : h.Allows op) :
    (∃ h', h.step op = some (h', 0) ∧ Sound h' es ∧ h'.allocator.buffer = h.allocator.buffer ∧
      h'.allocator.capacity = h.allocator.capacity ∧ h'.allocator.tracked = h.allocator.tracked ∧
      h'.live = h.live ∧ h'.lost = h.lost) ∨
    (∃ pre e post a s', es = pre ++ e :: post ∧ op = .allocate a.size a.alignment ∧
      firstFit es a.size a.alignment = some e ∧ need e a.size a.alignment = a.extent.size ∧
      a.absorbed = absorbedBy e a.extent.size ∧ Takes h.allocator pre e post a s' ∧
      h.step op = some ({ h with allocator := s', live := a :: h.live }, a.ptr)) ∨
    (∃ a s' recorded, a ∈ h.live ∧ op = .deallocate a.ptr ∧ h.step op = some (h.released s' a.ptr, 0) ∧
      s'.buffer = h.allocator.buffer ∧ s'.capacity = h.allocator.capacity ∧
      Sound (h.released s' a.ptr) (coalesce (insertSorted a.extent es)) ∧
      s'.tracked = h.allocator.tracked.recordDealloc recorded ∧
      (16 ≤ a.padding.toNat → recorded = a.size) ∧ (a.padding = 0 → recorded.toNat = a.extent.size)) := by
  cases op with
  | allocate size alignment =>
    rcases hs.allocate_cases hop.1 (hs.sum_of_noWrap hop) with hrun |
      ⟨pre, e, post, padding, ptr, s', rfl, hfirst, hrun, hneed, htakes⟩
    · exact .inl ⟨h, by simp [Heap.step, hop, hrun], hs, rfl, rfl, rfl, rfl, rfl⟩
    · let a : Allocation :=
        ⟨ptr, size, padding, alignment, absorbedBy e (16 + padding.toNat + size.toNat)⟩
      exact .inr (.inl ⟨pre, e, post, a, s', rfl, rfl, hfirst, hneed, rfl, htakes _,
        hs.step_allocate hop hrun htakes⟩)
  | deallocate ptr =>
    have hallowed := hop
    obtain ⟨a, ha, rfl⟩ := hop
    obtain ⟨s', recorded, hrun, hgiven⟩ := hs.released ha
    refine .inr (.inr ⟨a, s', recorded, ha, rfl, ?_, hgiven⟩)
    simp only [Heap.step, hallowed, if_true, hrun, Option.map_some]
  | write address byte =>
    have hallowed := hop
    obtain ⟨a, ha, hl, hu⟩ := hop
    exact .inl ⟨_, by simp only [Heap.step, hallowed, if_true], hs.written ha hl hu byte, rfl, rfl,
      rfl, rfl, rfl⟩

/-- An allowed call always comes back, and the heap is sound again. -/
theorem Sound.step (hs : Sound h es) {op : HeapOp} (hop : h.Allows op) :
    ∃ h' o es', heaps.step h op = some (h', o) ∧ Sound h' es' := by
  rcases hs.step_cases hop with ⟨h', hrun, hsound, _⟩ | ⟨pre, e, post, a, s', rfl, _, _, _, _, htake, hrun⟩ |
    ⟨a, s', recorded, _, _, hrun, _, _, hsound, _⟩
  · exact ⟨h', 0, es, hrun, hsound⟩
  · exact ⟨_, _, _, hrun, hs.allocated htake⟩
  · exact ⟨_, _, _, hrun, hsound⟩

theorem Heap.allows_of_step {h' : Heap} {op : HeapOp} {o : UInt64} (hst : h.step op = some (h', o)) :
    h.Allows op := by
  by_contra hn
  simp [Heap.step, hn] at hst

section Start
variable {capacity buffer : UInt64} {memory : Memory}

/-- A new allocator, given the buffer malloc returned and what lies in memory. -/
def Heap.start (capacity buffer : UInt64) (memory : Memory) : Heap :=
  { allocator := .create capacity buffer memory }

theorem create_lists (hcap : 0 < capacity.toNat) (hb : buffer ≠ 0) :
    ListsBlocks (CFreeListAllocator.create capacity buffer memory) [⟨buffer.toNat, capacity.toNat⟩] := by
  have hpos : capacity > 0 := UInt64.lt_iff_toNat_lt.mpr hcap
  simp only [CFreeListAllocator.create, hpos, if_true, hb, ne_eq, not_false_iff]
  refine ⟨rfl, ?_, ?_, trivial⟩
  · rw [setNext, load64_store64_disjoint (by simp), setSize, load64_store64]
  · rw [setNext, load64_store64]
    rfl

theorem sound_start_whole (hcap : 16 ≤ capacity.toNat)
    (hroom : buffer.toNat + capacity.toNat < 2 ^ 64) (hb : buffer ≠ 0) :
    Sound (.start capacity buffer memory) [⟨buffer.toNat, capacity.toNat⟩] := by
  have hpos : capacity > 0 := UInt64.lt_iff_toNat_lt.mpr (Nat.lt_of_lt_of_le (by decide) hcap)
  refine ⟨create_lists (by omega) hb, List.pairwise_singleton _ _, ?_, ?_, fun hnull => ?_, ?_,
    List.Pairwise.nil⟩
  · simp [Heap.start, CFreeListAllocator.create, hpos, hb, Extent.stop, hcap]
  · simpa [Heap.start, CFreeListAllocator.create, hpos, hb] using hroom
  · simp [Heap.start, CFreeListAllocator.create, hpos, hb] at hnull
  · simp [Heap.start]

theorem sound_start (hcap : 16 ≤ capacity.toNat) (hroom : buffer.toNat + capacity.toNat < 2 ^ 64) :
    ∃ es, Sound (.start capacity buffer memory) es := by
  by_cases hb : buffer = 0
  · have hpos : capacity > 0 := UInt64.lt_iff_toNat_lt.mpr (Nat.lt_of_lt_of_le (by decide) hcap)
    refine ⟨[], ⟨?_, trivial⟩, List.Pairwise.nil, ?_, ?_, fun _ => ⟨rfl, rfl⟩, ?_, List.Pairwise.nil⟩
    · simp [Heap.start, CFreeListAllocator.create, hpos, hb, firstOr]
    · simp
    · simpa [Heap.start, CFreeListAllocator.create, hpos, hb] using hroom
    · simp [Heap.start]
  · exact ⟨_, sound_start_whole hcap hroom hb⟩

end Start

/-- The free list is strictly sorted and lies inside of the buffer, no two blocks
overlap or touch, live allocations overlap neither each other nor a free block, and
each has the alignment it was asked for. -/
structure WellFormed (h : Heap) : Prop where
  lists : ListsBlocks h.allocator h.allocator.freeBlocks
  spaced : Spaced h.allocator.freeBlocks
  inside : ∀ e ∈ h.allocator.freeBlocks, h.allocator.buffer.toNat ≤ e.addr ∧
    e.stop ≤ h.allocator.buffer.toNat + h.allocator.capacity.toNat ∧ 0 < e.size
  within : ∀ a ∈ h.live, h.allocator.buffer.toNat ≤ a.extent.addr ∧
    a.extent.stop ≤ h.allocator.buffer.toNat + h.allocator.capacity.toNat
  apart : h.live.Pairwise (fun a b => Apart a.extent b.extent)
  free : ∀ a ∈ h.live, ∀ e ∈ h.allocator.freeBlocks, Apart a.extent e
  aligned : ∀ a ∈ h.live, a.alignment.toNat ∣ a.ptr.toNat

theorem Sound.wellFormed (hs : Sound h es) : WellFormed h := by
  have hfree := hs.freeBlocks
  refine ⟨hfree.symm ▸ hs.lists, hfree.symm ▸ hs.spaced, fun e he => ?_, fun a ha => (hs.live a ha).inside,
    hs.apart, fun a ha e he x hx hex => ?_, fun a ha => (hs.live a ha).aligned⟩
  · obtain ⟨hl, hu, hlarge⟩ := hs.inside e (hfree ▸ he)
    exact ⟨hl, hu, by omega⟩
  · exact (hs.live a ha).apart x hx ⟨e, hfree ▸ he, hex⟩

/-- Every run of an allocator, whatever malloc returned: it stays well formed, no
call hangs, and pointers have the alignment they were asked for. -/
theorem heaps_wellFormed {capacity buffer : UInt64} {memory : Memory} (hcap : 16 ≤ capacity.toNat)
    (hroom : buffer.toNat + capacity.toNat < 2 ^ 64) {ops : List HeapOp} {os : List UInt64}
    (hr : heaps.run (.start capacity buffer memory) ops = some (h, os)) :
    WellFormed h ∧ ∀ op, h.Allows op → ∃ h' o, heaps.step h op = some (h', o) ∧
      ∀ size alignment, op = .allocate size alignment → alignment.toNat ∣ o.toNat := by
  obtain ⟨es, hs⟩ : ∃ es, Sound h es := by
    refine Machine.run_keeps (fun s => ∃ es, Sound s es) ?_ (sound_start hcap hroom) hr
    rintro s op t o ⟨es, hs⟩ hst
    obtain ⟨t', o', es', hst', hs'⟩ := hs.step (Heap.allows_of_step hst)
    obtain ⟨rfl, rfl⟩ : t' = t ∧ o' = o := by simpa using hst'.symm.trans hst
    exact ⟨es', hs'⟩
  refine ⟨hs.wellFormed, fun op hop => ?_⟩
  rcases hs.step_cases hop with ⟨h', hrun, _⟩ | ⟨pre, e, post, a, s', _, rfl, _, _, _, htake, hrun⟩ |
    ⟨a, s', recorded, _, rfl, hrun, _⟩
  · exact ⟨h', 0, hrun, fun _ _ _ => Nat.dvd_zero _⟩
  · refine ⟨_, _, hrun, fun size alignment he => ?_⟩
    cases he
    exact htake.aligned
  · exact ⟨_, _, hrun, by simp⟩

/-- Two allocations, one padded to its alignment, released in the order they were made. -/
theorem heaps_wellFormed_padded : ∃ h os,
    heaps.run (.start 256 4096 fun _ => 0) [.allocate 24 8, .allocate 8 32, .write 4112 7,
      .deallocate 4112, .deallocate 4160] = some (h, os) ∧ os = [4112, 4160, 0, 0, 0] ∧
    WellFormed h := by
  have hrun : (heaps.run (.start 256 4096 fun _ => 0) [.allocate 24 8, .allocate 8 32, .write 4112 7,
      .deallocate 4112, .deallocate 4160]).map Prod.snd = some [4112, 4160, 0, 0, 0] := by
    decide +kernel
  obtain ⟨⟨h, os⟩, hr, hos⟩ := Option.map_eq_some_iff.mp hrun
  exact ⟨h, os, hr, hos, (heaps_wellFormed (by decide) (by decide) hr).1⟩

end TgeCore.Memory
