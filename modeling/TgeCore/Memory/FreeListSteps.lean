import TgeCore.Memory.FreeListHeap

namespace TgeCore.Memory
open Library.ByteMemory Library.Extents

variable {s : CFreeListAllocator} {es pre post : List Extent} {e : Extent} {lo hi : Nat}

/-- The free list in memory is this one, from its head to the null pointer. -/
structure ListsBlocks (s : CFreeListAllocator) (es : List Extent) : Prop where
  head : s.freeList.toNat = firstOr es 0
  linked : Linked s.memory es 0

theorem toNat_pos {x : UInt64} (hx : x ≠ 0) : 0 < x.toNat :=
  Nat.pos_of_ne_zero fun he => hx (UInt64.toNat_inj.mp he)

section Lists
variable (hs : ListsBlocks s es) (hpos : ∀ e ∈ es, 0 < e.addr) (hfuel : es.length < s.fuel)
include hs hpos hfuel

theorem freeBlocks_eq : s.freeBlocks = es :=
  readBlocks_eq hpos hs.linked hs.head hfuel

/-- Allocate gives up, or takes the first block that fits. -/
theorem allocate_run (size alignment : UInt64) :
    (s.allocate size alignment = some (s, 0) ∧ (size = 0 ∨ firstFit es size alignment = none)) ∨
    ∃ pre e post prev current, es = pre ++ e :: post ∧ firstFit es size alignment = some e ∧ size ≠ 0 ∧
      prev.toNat = lastOr pre 0 ∧ current.toNat = e.addr ∧
      s.allocate size alignment = some (s.take prev current size alignment,
        (placement current size alignment).alignedAddr) := by
  by_cases hsize : size = 0
  · exact .inl ⟨by simp [CFreeListAllocator.allocate, hsize], .inl hsize⟩
  have hasked : size > 0 := UInt64.pos_iff_ne_zero.mpr hsize
  by_cases hnull : s.freeList = 0
  · refine .inl ⟨by simp [CFreeListAllocator.allocate, hnull], .inr ?_⟩
    cases es with
    | nil => rfl
    | cons e es =>
      have hhead : s.freeList.toNat = e.addr := hs.head
      have := hpos e (by simp)
      rw [hnull, UInt64.toNat_zero] at hhead
      omega
  rcases findFit_spec hpos size alignment 0 hs.linked hs.head hfuel with
    ⟨hnone, hfirst⟩ | ⟨pre, e, post, prev, current, rfl, hfirst, hfound, hprev, hcurrent⟩
  · exact .inl ⟨by simp [CFreeListAllocator.allocate, hasked, hnull, hnone], .inr hfirst⟩
  · exact .inr ⟨pre, e, post, prev, current, rfl, hfirst, hsize, hprev, hcurrent,
      by simp [CFreeListAllocator.allocate, hasked, hnull, hfound]⟩

end Lists

/-- What Allocate leaves of a block it takes a part of. -/
def remainder (e : Extent) (need : Nat) : List Extent :=
  if e.size - need > 16 then [⟨e.addr + need, e.size - need⟩] else []

theorem remainder_mem {f : Extent} {need : Nat} (hf : f ∈ remainder e need) :
    f = ⟨e.addr + need, e.size - need⟩ ∧ 16 < e.size - need := by
  unfold remainder at hf
  split at hf
  · rename_i h
    exact ⟨List.mem_singleton.mp hf, h⟩
  · cases hf

/-- A call has left this free list, and has written to these blocks only. -/
structure Relists (s s' : CFreeListAllocator) (written es : List Extent) : Prop where
  lists : ListsBlocks s' es
  frame : ∀ i, ¬ Covers written i → s'.memory i = s.memory i
  buffer : s'.buffer = s.buffer
  capacity : s'.capacity = s.capacity

/-- Putting a list behind the first part of another one. -/
theorem relink_spec {rest : List Extent} {last : Nat} {prevBlock block : UInt64} (hlo : 0 < lo)
    (hb : Blocks lo hi pre) (hpre : Linked s.memory pre last) (hhead : s.freeList.toNat = firstOr pre last)
    (hprev : prevBlock.toNat = lastOr pre 0) (hrest : Linked s.memory rest 0)
    (hblock : block.toNat = firstOr rest 0)
    (hclear : ∀ f ∈ rest, ∀ i, f.addr ≤ i → i < f.addr + 16 →
      ∀ g ∈ pre, ¬ (g.addr ≤ i ∧ i < g.addr + 16)) :
    Relists s (s.link prevBlock block) pre (pre ++ rest) ∧
      (s.link prevBlock block).tracked = s.tracked := by
  obtain ⟨hlink, hfirst, hout, hbuf, hcap, htrack⟩ := link_spec s hlo hb hpre hhead block hprev
  refine ⟨⟨⟨?_, ?_⟩, fun i hi => ?_, hbuf, hcap⟩, htrack⟩
  · rw [firstOr_append, hfirst, hblock]
  · rw [linked_append, ← hblock]
    exact ⟨hlink, linked_congr (fun f hf i hl hu => (hout i (hclear f hf i hl hu)).symm) hrest⟩
  · exact hout i fun f hf hin => hi ⟨f, hf, hb.header_has hf hin.1 hin.2⟩

section Take
variable {prevBlock currentBlock size alignment totalSize : UInt64}
variable (hlo : 0 < lo) (hhi : hi < 2 ^ 64) (hb : Blocks lo hi (pre ++ e :: post))
variable (hs : ListsBlocks s (pre ++ e :: post)) (hprev : prevBlock.toNat = lastOr pre 0)
variable (hcur : currentBlock.toNat = e.addr) (hneed : 17 ≤ totalSize.toNat)
variable (hroom : totalSize.toNat ≤ e.size)
include hlo hb hs hprev hcur hroom

include hhi hneed in
/-- What is left over becomes a block of its own, in the place of the one found. -/
theorem unlist_split (hlarge : 16 < e.size - totalSize.toNat) :
    Relists s (s.unlist prevBlock currentBlock totalSize) (pre ++ e :: post)
        (pre ++ ⟨e.addr + totalSize.toNat, e.size - totalSize.toNat⟩ :: post) ∧
      (s.unlist prevBlock currentBlock totalSize).tracked = s.tracked := by
  obtain ⟨hpre, hsize, hnext, hpost⟩ := linked_append.mp hs.linked
  have hafter := (List.pairwise_cons.mp (List.pairwise_append.mp hb.ordered).2.1).1
  have hine := hb.inside e (by simp)
  simp only [Extent.stop] at hafter hine
  have hremaining : (sizeOf s.memory currentBlock - totalSize).toNat = e.size - totalSize.toNat := by
    have hsizeOf : (sizeOf s.memory currentBlock).toNat = e.size := by rw [sizeOf, hcur, hsize]
    rw [UInt64.toNat_sub_of_le _ _ (by rw [UInt64.le_iff_toNat_le, hsizeOf]; exact hroom), hsizeOf]
  have hnew : (currentBlock + totalSize).toNat = e.addr + totalSize.toNat := by
    rw [UInt64.toNat_add, hcur]
    omega
  generalize hrem : sizeOf s.memory currentBlock - totalSize = remaining at hremaining
  generalize hsized : setSize s.memory (currentBlock + totalSize) remaining = sized
  have hsame : (nextOf sized currentBlock).toNat = firstOr post 0 := by
    rw [nextOf, hcur, ← hsized, setSize, hnew, load64_store64_disjoint (by omega)]
    exact hnext
  generalize hmemory : setNext sized (currentBlock + totalSize) (nextOf sized currentBlock) = memory
  rw [← hsized] at hmemory hsame
  obtain ⟨hnewSize, hnewNext, hframe⟩ :=
    blockHeader_spec (e := ⟨e.addr + totalSize.toNat, e.size - totalSize.toNat⟩) hnew hremaining hmemory
  simp only at hframe
  have hunlist : s.unlist prevBlock currentBlock totalSize =
      { s with memory := memory }.link prevBlock (currentBlock + totalSize) := by
    have hsplit : remaining > freeBlockSize := by
      rw [gt_iff_lt, UInt64.lt_iff_toNat_lt, hremaining]
      exact hlarge
    simp only [CFreeListAllocator.unlist, hrem, hsplit, if_true, hmemory]
  rw [hunlist]
  have hkept : Linked memory pre e.addr := by
    refine linked_congr (fun f hf i hlow hup => (hframe i fun hin => ?_).symm) hpre
    exact hb.below (by omega) f hf ⟨hlow, hup⟩
  have hrest : Linked memory (⟨e.addr + totalSize.toNat, e.size - totalSize.toNat⟩ :: post) 0 := by
    refine ⟨hnewSize, by rw [hnewNext]; exact hsame, ?_⟩
    refine linked_congr (fun f hf i hlow hup => (hframe i fun hin => ?_).symm) hpost
    have := hafter f hf
    omega
  obtain ⟨⟨hlists, hout, hbuf, hcap⟩, htrack⟩ := relink_spec (s := { s with memory := memory }) hlo hb.left
    hkept (hs.head.trans firstOr_append) hprev hrest hnew fun f hf i hlow _ => hb.below (by
      rcases List.mem_cons.mp hf with rfl | hf
      · simp only at hlow
        omega
      · have := hafter f hf
        omega)
  refine ⟨⟨hlists, fun i hi => ?_, hbuf, hcap⟩, htrack⟩
  rw [covers_append, covers_cons] at hi
  refine (hout i fun hc => hi (.inl hc)).trans (hframe i fun hin => hi (.inr (.inl ⟨by omega, ?_⟩)))
  simp only [Extent.stop]
  omega

/-- Too little is left over: the block found leaves the list. -/
theorem unlist_whole (hsmall : ¬ 16 < e.size - totalSize.toNat) :
    Relists s (s.unlist prevBlock currentBlock totalSize) (pre ++ e :: post) (pre ++ post) ∧
      (s.unlist prevBlock currentBlock totalSize).tracked = s.tracked := by
  obtain ⟨hpre, hsize, hnext, hpost⟩ := linked_append.mp hs.linked
  have hafter := (List.pairwise_cons.mp (List.pairwise_append.mp hb.ordered).2.1).1
  simp only [Extent.stop] at hafter
  have hunlist : s.unlist prevBlock currentBlock totalSize =
      s.link prevBlock (nextOf s.memory currentBlock) := by
    have hsizeOf : (sizeOf s.memory currentBlock).toNat = e.size := by rw [sizeOf, hcur, hsize]
    have hkeep : ¬ sizeOf s.memory currentBlock - totalSize > freeBlockSize := by
      rw [gt_iff_lt, UInt64.lt_iff_toNat_lt, UInt64.toNat_sub_of_le _ _ (by
        rw [UInt64.le_iff_toNat_le, hsizeOf]; exact hroom), hsizeOf]
      exact hsmall
    simp only [CFreeListAllocator.unlist, hkeep, if_false]
  rw [hunlist]
  have hnextOf : (nextOf s.memory currentBlock).toNat = firstOr post 0 := by rw [nextOf, hcur, hnext]
  obtain ⟨⟨hlists, hout, hbuf, hcap⟩, htrack⟩ := relink_spec hlo hb.left hpre
    (hs.head.trans firstOr_append) hprev hpost hnextOf fun f hf i hlow _ => hb.below (by
      have := hafter f hf
      omega)
  refine ⟨⟨hlists, fun i hi => hout i fun hc => hi ?_, hbuf, hcap⟩, htrack⟩
  exact (covers_append i).mpr (.inl hc)

include hhi hneed in
theorem unlist_spec :
    Relists s (s.unlist prevBlock currentBlock totalSize) (pre ++ e :: post)
        (pre ++ (remainder e totalSize.toNat ++ post)) ∧
      (s.unlist prevBlock currentBlock totalSize).tracked = s.tracked := by
  by_cases hlarge : 16 < e.size - totalSize.toNat
  · rw [remainder, if_pos hlarge]
    exact unlist_split hlo hhi hb hs hprev hcur hneed hroom hlarge
  · rw [remainder, if_neg hlarge]
    exact unlist_whole hlo hb hs hprev hcur hroom hlarge

end Take

section Allocate
variable {prevBlock currentBlock size alignment : UInt64} {p : Placement}

/-- Allocate at the block found: a header just below the pointer, and the list
without the bytes taken. -/
theorem take_spec (hlo : 0 < lo) (hhi : hi < 2 ^ 64) (hb : Blocks lo hi (pre ++ e :: post))
    (hs : ListsBlocks s (pre ++ e :: post)) (hprev : prevBlock.toNat = lastOr pre 0)
    (hcur : currentBlock.toNat = e.addr) (hp : placement currentBlock size alignment = p)
    (hsize : 0 < size.toNat) (haddr : p.alignedAddr.toNat = e.addr + 16 + p.padding.toNat)
    (htotal : p.totalSize.toNat = 16 + p.padding.toNat + size.toNat)
    (hroom : p.totalSize.toNat ≤ e.size) {s' : CFreeListAllocator}
    (ht : s.take prevBlock currentBlock size alignment = s') :
    Relists s s' (pre ++ e :: post) (pre ++ (remainder e p.totalSize.toNat ++ post)) ∧
      headerSizeField s'.memory p.alignedAddr = size ∧
      headerPaddingField s'.memory p.alignedAddr = p.padding ∧
      s'.tracked = s.tracked.recordAlloc size := by
  obtain ⟨⟨⟨hhead, hlinked⟩, hframe, hbuf, hcap⟩, htrack⟩ :=
    unlist_spec hlo hhi hb hs hprev hcur (by omega) hroom
  have hine := hb.inside e (by simp)
  have hstart : 16 ≤ p.alignedAddr.toNat := by omega
  rw [CFreeListAllocator.take, hp] at ht
  generalize s.unlist prevBlock currentBlock p.totalSize = listed at *
  subst ht
  refine ⟨⟨⟨hhead, ?_⟩, ?_, hbuf, hcap⟩, headerSizeField_storeHeader ..,
    headerPaddingField_storeHeader .., by rw [htrack]⟩
  · refine linked_congr (fun f hf i hlow hup => (storeHeader_frame _ _ hstart ?_).symm) hlinked
    obtain ⟨_, hepost, hcross⟩ := List.pairwise_append.mp hb.ordered
    rcases List.mem_append.mp hf with hf | hf
    · have := hcross f hf e (by simp)
      have := hb.inside f (by simp [hf])
      simp only [Extent.stop] at *
      omega
    · rcases List.mem_append.mp hf with hf | hf
      · obtain ⟨rfl, _⟩ := remainder_mem hf
        simp only at hlow
        omega
      · have := (List.pairwise_cons.mp hepost).1 f hf
        simp only [Extent.stop] at this
        omega
  · intro i hi
    have hout : ¬ (e.addr ≤ i ∧ i < e.stop) := fun hin => hi ⟨e, by simp, hin⟩
    have hheader : i < p.alignedAddr.toNat - 16 ∨ p.alignedAddr.toNat ≤ i := by
      simp only [Extent.stop] at hout
      omega
    exact (storeHeader_frame _ _ hstart hheader).trans (hframe i hi)

end Allocate

section Deallocate
variable {ptr size padding : UInt64}

theorem insertSorted_blocks {new : Extent} (hb : Blocks lo hi es)
    (hin : lo ≤ new.addr ∧ new.stop ≤ hi ∧ 16 ≤ new.size) (hfree : ∀ x, new.Has x → ¬ Covers es x) :
    Blocks lo hi (insertSorted new es) := by
  refine ⟨ordered_insertSorted hb.ordered (fun e he => ?_) (by omega) hfree, ?_⟩
  · have := (hb.inside e he).2.2
    omega
  · intro e he
    rcases List.mem_cons.mp ((insertSorted_perm new es).mem_iff.mp he) with rfl | he
    · exact hin
    · exact hb.inside e he

variable (hlo : 0 < lo) (hhi : hi < 2 ^ 64)
include hlo

/-- A block that covers nothing free goes into the list at its address. Of the block itself
only its two fields are written. -/
theorem insert_spec (hb : Blocks lo hi es) (hs : ListsBlocks s es) (hfuel : es.length < s.fuel)
    {new : Extent} (hlarge : 16 ≤ new.size) (hfree : ∀ x, new.Has x → ¬ Covers es x)
    {blockAddr totalSize : UInt64} (haddr : blockAddr.toNat = new.addr)
    (hsize : totalSize.toNat = new.size) :
    ∃ s', s.insert blockAddr totalSize = some s' ∧ Relists s s' (new :: es) (insertSorted new es) ∧
      s'.tracked = s.tracked ∧
      ∀ i, i < new.addr ∨ new.addr + 16 ≤ i → ¬ Covers es i → s'.memory i = s.memory i := by
  have hnewHas : ∀ i, new.addr ≤ i → i < new.addr + 16 → new.Has i :=
    fun i hl hu => ⟨hl, by simp only [Extent.stop]; omega⟩
  generalize hmade : setNext (setSize s.memory blockAddr totalSize) blockAddr 0 = made
  obtain ⟨hnewSize, hnewNext, hframe⟩ := blockHeader_spec haddr hsize hmade
  have hmadeLinked : Linked made es 0 := by
    refine linked_congr (fun f hf i hl hu => (hframe i fun hin => ?_).symm) hs.linked
    exact hfree i (hnewHas i hin.1 hin.2) ⟨f, hf, hb.header_has hf hl hu⟩
  obtain ⟨prev, current, hfound, hprev, hcurrent⟩ :=
    findPlace_spec (hb.positive hlo) blockAddr 0 hmadeLinked hs.head hfuel
  rw [haddr] at hprev hcurrent
  have hsplit := List.takeWhile_append_dropWhile (p := fun f : Extent => decide (f.addr < new.addr))
    (l := es)
  have hsorted : insertSorted new es = es.takeWhile (fun f => decide (f.addr < new.addr)) ++
      new :: es.dropWhile (fun f => decide (f.addr < new.addr)) := rfl
  generalize es.takeWhile (fun f => decide (f.addr < new.addr)) = pre at *
  generalize es.dropWhile (fun f => decide (f.addr < new.addr)) = post at *
  subst hsplit
  obtain ⟨hpre, hpost⟩ := linked_append.mp hmadeLinked
  have hclear : ∀ f ∈ [new], ∀ i, f.addr ≤ i → i < f.addr + 16 →
      ∀ g ∈ pre, ¬ (g.addr ≤ i ∧ i < g.addr + 16) := by
    intro f hf i hl hu g hg hin
    rw [List.mem_singleton.mp hf] at hl hu
    exact hfree i (hnewHas i hl hu) ⟨g, by simp [hg], hb.header_has (by simp [hg]) hin.1 hin.2⟩
  have halone : Linked made [new] 0 := ⟨hnewSize, by rw [hnewNext]; rfl, trivial⟩
  obtain ⟨⟨⟨hhead, hlisted⟩, hout, hbuf, hcap⟩, htrack⟩ := relink_spec (s := { s with memory := made }) hlo
    hb.left hpre (hs.head.trans firstOr_append) hprev halone haddr hclear
  generalize hlink : { s with memory := made }.link prev blockAddr = listed at *
  have hclear' : ∀ i, i < new.addr ∨ new.addr + 16 ≤ i → ¬ Covers (pre ++ post) i →
      setNext listed.memory blockAddr current i = s.memory i := by
    intro i hi hc
    rw [covers_append] at hc
    rw [setNext, haddr, store64_frame (by omega)]
    exact (hout i fun hc' => hc (.inl hc')).trans (hframe i (by omega))
  refine ⟨{ listed with memory := setNext listed.memory blockAddr current }, ?_, ⟨⟨?_, ?_⟩, ?_, hbuf, hcap⟩,
    htrack, hclear'⟩
  · simp only [CFreeListAllocator.insert, hmade, hfound, hlink]
  · rw [hsorted, hhead, firstOr_append, firstOr_append]
    rfl
  all_goals rw [setNext, haddr]
  · obtain ⟨hlistedPre, hlistedSize, _⟩ := linked_append.mp hlisted
    rw [hsorted, linked_append]
    refine ⟨linked_congr (fun f hf i hl hu => ?_) hlistedPre, ?_, ?_,
      linked_congr (fun f hf i hl hu => ?_) hpost⟩
    · refine (store64_frame ?_).symm
      by_contra hin
      exact hclear new (by simp) i (by omega) (by omega) f hf ⟨hl, hu⟩
    · rw [load64_store64_disjoint (by omega)]
      exact hlistedSize
    · rw [load64_store64, hcurrent]
    · have hhas := hb.header_has (by simp [hf]) hl hu
      have hnot : ¬ new.Has i := fun hh => hfree i hh ⟨f, by simp [hf], hhas⟩
      refine ((store64_frame ?_).trans (hout i ?_)).symm
      · by_contra hin
        exact hnot (hnewHas i (by omega) (by omega))
      · rintro ⟨g, hg, hgi⟩
        have := (List.pairwise_append.mp hb.ordered).2.2 g hg f hf
        have := hgi.2
        omega
  · intro i hi
    rw [covers_cons] at hi
    have hnot : ¬ (new.addr ≤ i ∧ i < new.addr + 16) := fun hin => hi (.inl (hnewHas i hin.1 hin.2))
    rw [← haddr]
    exact hclear' i (by omega) fun hc => hi (.inr hc)

include hhi

/-- CoalesceFreeBlocks merges what touches. -/
theorem coalesce_spec (hb : Blocks lo hi es) (hs : ListsBlocks s es) (fuel : Nat) (hpos : 0 < fuel)
    (hfuel : es.length ≤ fuel) : ∃ m', coalesceFreeBlocks s.memory fuel s.freeList = some m' ∧
      Linked m' (coalesce es) 0 ∧ firstOr (coalesce es) 0 = firstOr es 0 ∧
      ∀ i, ¬ Covers es i → m' i = s.memory i := by
  cases es with
  | nil =>
    have hnull : s.freeList = 0 := UInt64.toNat_inj.mp hs.head
    obtain ⟨fuel, rfl⟩ : ∃ f, fuel = f + 1 := ⟨fuel - 1, by omega⟩
    exact ⟨s.memory, by simp [coalesceFreeBlocks, hnull], trivial, rfl, fun _ _ => rfl⟩
  | cons a rest =>
    obtain ⟨m', hrun, hdone, hkept⟩ := coalesceFreeBlocks_spec hlo hhi hb hs.linked hs.head hfuel
    refine ⟨m', hrun, hdone, firstOr_coalesceFrom a rest 0, fun i hi => hkept i fun f hf hin => hi ?_⟩
    exact ⟨f, hf, hb.header_has hf hin.1 hin.2⟩

/-- Deallocate puts the extent its header describes back into the list and merges
what touches. Only the extent and the free blocks are written. The size it then records is
the header's if the padding keeps the new block's fields off it, and without padding it is
the new block's. -/
theorem deallocate_spec (hb : Blocks lo hi es) (hs : ListsBlocks s es) (hbuffer : s.buffer ≠ 0)
    (hfuel : es.length < s.fuel) {new : Extent} (hin : lo ≤ new.addr ∧ new.stop ≤ hi)
    (hfree : ∀ x, new.Has x → ¬ Covers es x) (hsize : headerSizeField s.memory ptr = size)
    (hpadding : headerPaddingField s.memory ptr = padding)
    (hptr : ptr.toNat = new.addr + 16 + padding.toNat)
    (hnew : new.size = 16 + padding.toNat + size.toNat) :
    ∃ s' recorded, s.deallocate ptr = some s' ∧
      Relists s s' (new :: es) (coalesce (insertSorted new es)) ∧
      s'.tracked = s.tracked.recordDealloc recorded ∧ (16 ≤ padding.toNat → recorded = size) ∧
      (padding = 0 → recorded.toNat = new.size) := by
  have hnonnull : ptr ≠ 0 := by
    rintro rfl
    simp only [UInt64.toNat_zero] at hptr
    omega
  have hblock : (ptr - headerSize - padding).toNat = new.addr := by
    have hlarge : 16 ≤ ptr.toNat := by omega
    have hheader := (header_toNat hlarge).1
    rw [UInt64.toNat_sub_of_le _ _ (by rw [UInt64.le_iff_toNat_le, hheader]; omega), hheader]
    omega
  have htotal : (headerSize + padding + size).toNat = new.size := by
    have hsixteen : headerSize.toNat = 16 := rfl
    rw [UInt64.toNat_add, UInt64.toNat_add, hsixteen]
    simp only [Extent.stop] at hin
    omega
  have hlarge : 16 ≤ new.size := by omega
  have hlength := (insertSorted_perm new es).length_eq
  rw [List.length_cons] at hlength
  obtain ⟨listed, hinsert, ⟨hlists, hframe, hbuf, hcap⟩, htrack, hclear⟩ :=
    insert_spec hlo hb hs hfuel hlarge hfree hblock htotal
  have hblocks := insertSorted_blocks hb ⟨hin.1, hin.2, hlarge⟩ hfree
  obtain ⟨m', hrun, hdone, hhead, hkept⟩ :=
    coalesce_spec hlo hhi hblocks hlists s.fuel (by omega) (by omega)
  refine ⟨{ listed with
    memory := m', tracked := listed.tracked.recordDealloc (headerSizeField listed.memory ptr) }, _,
    ?_, ⟨⟨hlists.head.trans hhead.symm, hdone⟩, fun i hi => ?_, hbuf, hcap⟩, by rw [htrack], ?_, ?_⟩
  · simp only [CFreeListAllocator.deallocate, hnonnull, hbuffer, ne_eq, not_false_iff, and_self,
      if_true, hsize, hpadding, hinsert, hrun]
  · refine (hkept i fun hc => hi ?_).trans (hframe i hi)
    exact (covers_perm (insertSorted_perm new es) i).mp hc
  · intro hpadded
    rw [← hsize]
    refine (header_congr (by omega) fun i hl hu => ?_).1
    refine hclear i (.inr (by omega)) (hfree i ⟨by omega, ?_⟩)
    simp only [Extent.stop]
    omega
  · rintro rfl
    have hstart : ptr.toNat - 16 = new.addr := Nat.sub_eq_of_eq_add hptr
    rw [headerSizeField_eq (by omega), hstart]
    exact linked_size hlists.linked ((insertSorted_perm new es).mem_iff.mpr List.mem_cons_self)

end Deallocate

end TgeCore.Memory
