import Mathlib.Algebra.BigOperators.Group.List.Basic
import TgeCore.Memory.FreeListSafety

namespace TgeCore.Memory
open Library Library.ByteMemory Library.Extents

variable {h h' : Heap} {s : CFreeListAllocator} {es pre post : List Extent} {e : Extent}
  {a : Allocation} {capacity buffer size alignment : UInt64} {memory : Memory}

/-- The bytes owned by the live allocations. -/
def Heap.owned (h : Heap) : Nat := (h.live.map Allocation.owned).sum

/-- The one block of a new allocator. -/
def wholeBuffer (capacity buffer : UInt64) : List Extent :=
  if capacity = 0 then [] else [⟨buffer.toNat, capacity.toNat⟩]

/-- The pointer Allocate returns depends on the free blocks only. -/
def servedAt (es : List Extent) (size alignment : UInt64) : UInt64 :=
  if size = 0 then 0
  else match firstFit es size alignment with
    | some e => (placement (UInt64.ofNat e.addr) size alignment).alignedAddr
    | none => 0

theorem allocate_served (hs : ListsBlocks s es) (hpos : ∀ e ∈ es, 0 < e.addr)
    (hfuel : es.length < s.fuel) (size alignment : UInt64) :
    (s.allocate size alignment).map Prod.snd = some (servedAt es size alignment) := by
  rcases allocate_run hs hpos hfuel size alignment with ⟨hrun, hnone⟩ |
    ⟨pre, e, post, prev, current, rfl, hfirst, hsize, _, hcurrent, hrun⟩
  · rw [hrun, servedAt]
    rcases hnone with hsize | hnone
    · simp [hsize]
    · simp [hnone]
  · have hcur : UInt64.ofNat e.addr = current := by rw [← hcurrent, UInt64.ofNat_toNat]
    simp [hrun, servedAt, hsize, hfirst, hcur]

/-- No byte is lost: free and owned bytes add up to the capacity, and when nothing
is live the list is one block again and serves what it served at the start. -/
structure Conserved (capacity buffer : UInt64) (memory : Memory) (h : Heap) : Prop where
  bytes : total h.allocator.freeBlocks + h.owned = capacity.toNat
  whole : h.live = [] → h.allocator.freeBlocks = wholeBuffer capacity buffer
  serves : h.live = [] → ∀ size alignment, (h.allocator.allocate size alignment).map Prod.snd =
    ((CFreeListAllocator.create capacity buffer memory).allocate size alignment).map Prod.snd

/-- An Allocate finds no block, or one that it can use up or split: what is left
over is nothing or more than a free block's header. -/
def Heap.SplitsCleanly (h : Heap) : HeapOp → Prop
  | .allocate size alignment => 0 < size → ∀ e ∈ firstFit h.allocator.freeBlocks size alignment,
      e.size = need e size alignment ∨ need e size alignment + 16 < e.size
  | _ => True

instance (h : Heap) (op : HeapOp) : Decidable (h.SplitsCleanly op) :=
  match op with
  | .allocate size alignment => inferInstanceAs (Decidable (0 < size →
      ∀ e ∈ firstFit h.allocator.freeBlocks size alignment, _ ∨ _))
  | .deallocate _ => isTrue trivial
  | .write _ _ => isTrue trivial

/-- The account of a heap: where each byte of the buffer is. -/
structure Account (capacity buffer : UInt64) (h : Heap) (es : List Extent) : Prop where
  sound : Sound h es
  fromBuffer : h.allocator.buffer = buffer
  fromCapacity : h.allocator.capacity = capacity
  bytes : total es + h.owned + h.lost = capacity.toNat

theorem filter_ptr_eq {l : List Allocation} (hl : l.Pairwise (fun a b => a.ptr ≠ b.ptr)) (ha : a ∈ l) :
    l.filter (fun b => b.ptr = a.ptr) = [a] := by
  induction l with
  | nil => cases ha
  | cons b l ih =>
    obtain ⟨hb, hl⟩ := List.pairwise_cons.mp hl
    rcases List.mem_cons.mp ha with rfl | ha
    · have hrest : l.filter (fun b => b.ptr = a.ptr) = [] := by
        refine List.filter_eq_nil_iff.mpr fun c hc => ?_
        simpa using (hb c hc).symm
      rw [List.filter_cons_of_pos (by simp), hrest]
    · rw [List.filter_cons_of_neg (by simpa using hb a ha), ih hl ha]

/-- A sum over the live allocations, and over those that a Deallocate leaves. -/
theorem Sound.sum_released (hs : Sound h es) (ha : a ∈ h.live) (f : Allocation → Nat) :
    ((h.live.filter fun b => b.ptr ≠ a.ptr).map f).sum + f a = (h.live.map f).sum := by
  have hperm := List.filter_append_perm (fun b : Allocation => decide (b.ptr = a.ptr)) h.live
  have hsum := (hperm.map f).sum_eq
  rw [filter_ptr_eq hs.ptr_injective ha] at hsum
  simp only [List.map_append, List.sum_append, List.map_cons, List.map_nil, List.sum_cons,
    List.sum_nil] at hsum
  simp only [ne_eq, decide_not]
  omega

/-- Releasing an allocation takes what it owns out of the account of live ones. -/
theorem Sound.owned_released (hs : Sound h es) (ha : a ∈ h.live) (s' : CFreeListAllocator) :
    (h.released s' a.ptr).owned + a.owned = h.owned ∧
      (h.released s' a.ptr).lost = h.lost + a.absorbed := by
  refine ⟨hs.sum_released ha Allocation.owned, ?_⟩
  simp [Heap.released, filter_ptr_eq hs.ptr_injective ha]

/-- One call moves bytes between the accounts. Only what an allocation had absorbed
is lost with it. -/
theorem Account.step (hac : Account capacity buffer h es) {op : HeapOp} {o : UInt64}
    (hst : heaps.step h op = some (h', o)) : ∃ es', Account capacity buffer h' es' := by
  obtain ⟨hs, rfl, rfl, hbytes⟩ := hac
  rcases hs.step_cases (Heap.allows_of_step hst) with ⟨t, hrun, hsound, hbuf, hcap, _, hlive,
      hlost⟩ |
    ⟨pre, e, post, a, s', rfl, _, _, _, habsorbed, htake, hrun⟩ |
    ⟨a, s', recorded, ha, _, hrun, hbuf, hcap, hsound, _⟩
  · obtain ⟨rfl, rfl⟩ : t = h' ∧ 0 = o := by simpa [hrun] using hst
    exact ⟨es, hsound, hbuf, hcap, by rw [Heap.owned, hlive, hlost]; exact hbytes⟩
  · obtain ⟨rfl, rfl⟩ : _ = h' ∧ a.ptr = o := by simpa [hrun] using hst
    refine ⟨_, hs.allocated htake, htake.buffer, htake.capacity, ?_⟩
    have htotal := total_remainder pre post htake.room
    simp only [Heap.owned, List.map_cons, List.sum_cons, Allocation.owned] at hbytes ⊢
    omega
  · obtain ⟨rfl, rfl⟩ : _ = h' ∧ 0 = o := by simpa [hrun] using hst
    obtain ⟨howned, hlost⟩ := hs.owned_released ha s'
    refine ⟨_, hsound, hbuf, hcap, ?_⟩
    rw [total_given, hlost]
    simp only [Allocation.owned] at howned
    omega

/-- A call that splits cleanly leaves nothing absorbed. -/
theorem Account.step_clean (hac : Account capacity buffer h es) {op : HeapOp} {o : UInt64}
    (hclean : h.SplitsCleanly op) (hst : heaps.step h op = some (h', o))
    (hlost : h.lost = 0 ∧ ∀ a ∈ h.live, a.absorbed = 0) :
    h'.lost = 0 ∧ ∀ a ∈ h'.live, a.absorbed = 0 := by
  have hs := hac.sound
  rcases hs.step_cases (Heap.allows_of_step hst) with ⟨t, hrun, _, _, _, _, hlive, hkept⟩ |
    ⟨pre, e, post, a, s', rfl, rfl, hfirst, hneed, habsorbed, htake, hrun⟩ |
    ⟨a, s', recorded, ha, _, hrun, _⟩
  · obtain ⟨rfl, rfl⟩ : t = h' ∧ 0 = o := by simpa [hrun] using hst
    rw [hkept, hlive]
    exact hlost
  · obtain ⟨rfl, rfl⟩ : _ = h' ∧ a.ptr = o := by simpa [hrun] using hst
    refine ⟨hlost.1, List.forall_mem_cons.mpr ⟨?_, hlost.2⟩⟩
    rw [Heap.SplitsCleanly, hs.freeBlocks] at hclean
    have hleft := hclean (UInt64.lt_iff_toNat_lt.mpr htake.requested) e hfirst
    rw [hneed] at hleft
    rw [habsorbed]
    rcases hleft with hexact | hlarge
    · simp [absorbedBy, hexact]
    · have hsplit : e.size - a.extent.size > 16 := by omega
      simp [absorbedBy, remainder, hsplit]
  · obtain ⟨rfl, rfl⟩ : _ = h' ∧ 0 = o := by simpa [hrun] using hst
    rw [(hs.owned_released ha s').2, hlost.1, hlost.2 a ha]
    exact ⟨rfl, fun b hb => hlost.2 b (List.mem_filter.mp hb).1⟩

section Whole
variable (hb : 0 < capacity.toNat → buffer ≠ 0)
include hb

theorem create_whole (memory : Memory) : ListsBlocks (.create capacity buffer memory) (wholeBuffer capacity buffer) ∧
    (∀ e ∈ wholeBuffer capacity buffer, 0 < e.addr) ∧
    (wholeBuffer capacity buffer).length < (CFreeListAllocator.create capacity buffer memory).fuel := by
  by_cases hcap : capacity = 0
  · refine ⟨⟨?_, ?_⟩, ?_, ?_⟩
    · simp [wholeBuffer, CFreeListAllocator.create, hcap, firstOr]
    · simp [wholeBuffer, hcap, Linked]
    · simp [wholeBuffer, hcap]
    · simp [wholeBuffer, CFreeListAllocator.fuel, hcap]
  · have hpos := toNat_pos hcap
    have hsome : capacity > 0 := UInt64.lt_iff_toNat_lt.mpr hpos
    have hbuffer := hb hpos
    refine ⟨?_, ?_, ?_⟩
    · rw [wholeBuffer, if_neg hcap]
      exact create_lists hpos hbuffer
    · simpa [wholeBuffer, hcap] using toNat_pos hbuffer
    · simpa [wholeBuffer, CFreeListAllocator.fuel, CFreeListAllocator.create, hcap, hsome, hbuffer]
        using hpos

theorem conserved_start (memory : Memory) : Conserved capacity buffer memory (.start capacity buffer memory) := by
  obtain ⟨hlists, hpos, hfuel⟩ := create_whole hb memory
  have hfree : (Heap.start capacity buffer memory).allocator.freeBlocks = wholeBuffer capacity buffer :=
    freeBlocks_eq hlists hpos hfuel
  refine ⟨?_, fun _ => hfree, fun _ _ _ => rfl⟩
  rw [hfree, wholeBuffer]
  by_cases hcap : capacity = 0
  · simp [hcap, Heap.owned, Heap.start]
  · simp [hcap, Heap.owned, Heap.start]

/-- A buffer without room for a header and a byte never serves anything. -/
theorem step_small (hcap : capacity.toNat < 16) {op : HeapOp} {o : UInt64}
    (hst : heaps.step (.start capacity buffer memory) op = some (h', o)) :
    h' = .start capacity buffer memory := by
  obtain ⟨hlists, hpos, hfuel⟩ := create_whole hb memory
  have hop := Heap.allows_of_step hst
  cases op with
  | allocate size alignment =>
    rcases allocate_run hlists hpos hfuel size alignment with ⟨hrun, _⟩ |
      ⟨pre, e, post, prev, current, hes, hfirst, _, _, hcurrent, _⟩
    · have hnone : (Heap.start capacity buffer memory).allocator.allocate size alignment =
          some ((Heap.start capacity buffer memory).allocator, 0) := hrun
      have hstep : (Heap.start capacity buffer memory).step (.allocate size alignment) =
          some (.start capacity buffer memory, 0) := by
        simp only [Heap.step, hop, if_true, hnone, Option.map_some]
      rw [heaps_step, hstep, Option.some.injEq, Prod.mk.injEq] at hst
      exact hst.1.symm
    · exfalso
      have hmem : e ∈ wholeBuffer capacity buffer := by rw [hes]; simp
      have hsize : e.size < 16 := by
        unfold wholeBuffer at hmem
        split at hmem
        · cases hmem
        · rw [List.mem_singleton.mp hmem]
          exact hcap
      have hfits : need e size alignment ≤ e.size := by
        simpa using (List.find?_eq_some_iff_append.mp hfirst).1
      have hfree : (Heap.start capacity buffer memory).allocator.freeBlocks =
        wholeBuffer capacity buffer := freeBlocks_eq hlists hpos hfuel
      obtain ⟨hwrap, hsum⟩ := hop.2 e (hfree ▸ hmem)
      have hpositive := hop.1.pos
      have hdata : (UInt64.ofNat e.addr + headerSize).toNat = e.addr + 16 := by
        rw [← hcurrent, UInt64.ofNat_toNat, UInt64.toNat_add]
        change (current.toNat + 16) % 2 ^ 64 = _
        omega
      have htotal := (placement_spec size rfl hop.1 hdata).2.2.2.2
      rw [← need] at htotal
      omega
  | deallocate ptr =>
    obtain ⟨a, ha, _⟩ := hop
    cases ha
  | write address byte =>
    obtain ⟨a, ha, _⟩ := hop
    cases ha

end Whole

theorem Account.conserved_iff (hac : Account capacity buffer h es) (hb : 0 < capacity.toNat → buffer ≠ 0)
    (hcap : 0 < capacity.toNat) : Conserved capacity buffer memory h ↔ h.lost = 0 := by
  obtain ⟨hs, rfl, rfl, hbytes⟩ := hac
  have hfree := hs.freeBlocks
  constructor
  · rintro ⟨hkept, _, _⟩
    rw [hfree] at hkept
    omega
  · intro hlost
    have hwhole : h.live = [] → es = wholeBuffer h.allocator.capacity h.allocator.buffer := by
      intro hlive
      have howned : h.owned = 0 := by simp [Heap.owned, hlive]
      have hnonzero : h.allocator.capacity ≠ 0 := by
        rintro hzero
        simp [hzero] at hcap
      rw [wholeBuffer, if_neg hnonzero, eq_singleton_of_total hs.spaced
        (fun e he => ⟨(hs.inside e he).1, (hs.inside e he).2.1⟩) (by omega) (by omega)]
      simp
    refine ⟨by rw [hfree]; omega, fun hlive => hfree.trans (hwhole hlive), fun hlive size alignment => ?_⟩
    obtain ⟨hlists, hpos, hfuel⟩ := create_whole hb memory
    rw [allocate_served hs.lists hs.positive hs.fuel, allocate_served hlists hpos hfuel, hwhole hlive]

/-- A run keeps every byte exactly as long as no released allocation had absorbed
any, so a run keeps them all if each of its Allocates splits cleanly. -/
theorem heaps_conserve_iff (hb : 0 < capacity.toNat → buffer ≠ 0)
    (hroom : buffer.toNat + capacity.toNat < 2 ^ 64) {ops : List HeapOp} {os : List UInt64}
    (hr : heaps.run (.start capacity buffer memory) ops = some (h, os)) :
    (Conserved capacity buffer memory h ↔ h.lost = 0) ∧
      (heaps.Along Heap.SplitsCleanly (.start capacity buffer memory) ops →
        Conserved capacity buffer memory h) := by
  rcases Nat.lt_or_ge capacity.toNat 16 with hsmall | hlarge
  · have hsame : h = .start capacity buffer memory := by
      refine Machine.run_keeps (fun s => s = .start capacity buffer memory) ?_ rfl hr
      rintro s op t o rfl hst
      exact step_small hb hsmall hst
    subst hsame
    have hconserved := conserved_start hb memory
    exact ⟨⟨fun _ => rfl, fun _ => hconserved⟩, fun _ => hconserved⟩
  · have hpos : 0 < capacity.toNat := by omega
    have hsome : capacity > 0 := UInt64.lt_iff_toNat_lt.mpr hpos
    have hstart : Account capacity buffer (.start capacity buffer memory)
        [⟨buffer.toNat, capacity.toNat⟩] := by
      refine ⟨sound_start_whole hlarge hroom (hb hpos), ?_, ?_, ?_⟩
      · simp [Heap.start, CFreeListAllocator.create, hsome, hb hpos]
      · simp [Heap.start, CFreeListAllocator.create, hsome, hb hpos]
      · simp [Heap.start, Heap.owned]
    obtain ⟨es, hac⟩ : ∃ es, Account capacity buffer h es := by
      refine Machine.run_keeps (fun s => ∃ es, Account capacity buffer s es) ?_ ⟨_, hstart⟩ hr
      rintro s op t o ⟨es, hac⟩ hst
      exact hac.step hst
    refine ⟨hac.conserved_iff hb hpos, fun hclean => (hac.conserved_iff hb hpos).mpr ?_⟩
    have hkept := hclean.keeps (fun s => (∃ es, Account capacity buffer s es) ∧ s.lost = 0 ∧
      ∀ a ∈ s.live, a.absorbed = 0) ?_ ⟨⟨_, hstart⟩, rfl, by simp [Heap.start]⟩ hr
    · exact hkept.2.1
    · rintro s op t o ⟨⟨es, hac⟩, hlost⟩ hsplit hst
      exact ⟨hac.step hst, hac.step_clean hsplit hst hlost⟩

theorem heaps_conserve_padded : ∃ h os,
    heaps.run (.start 256 4096 fun _ => 0) [.allocate 24 8, .allocate 8 32, .deallocate 4112,
      .deallocate 4160] = some (h, os) ∧ Conserved 256 4096 (fun _ => 0) h := by
  have hrun : ((heaps.run (.start 256 4096 fun _ => 0) [.allocate 24 8, .allocate 8 32,
      .deallocate 4112, .deallocate 4160])).isSome = true := by decide +kernel
  obtain ⟨⟨h, os⟩, hr⟩ := Option.isSome_iff_exists.mp hrun
  exact ⟨h, os, hr, (heaps_conserve_iff (by decide) (by decide) hr).2 (by decide +kernel)⟩

/-- Allocate(40) takes all of a block of 64 bytes. Deallocate gives back 56 of them. -/
theorem heaps_lose_remainder : ∃ h os,
    heaps.run (.start 64 4096 fun _ => 0) [.allocate 40 8, .deallocate 4112] = some (h, os) ∧
    os = [4112, 0] ∧ h.live = [] ∧ h.allocator.freeBlocks = [⟨4096, 56⟩] ∧
    ¬ Conserved 64 4096 (fun _ => 0) h := by
  have hrun : ((heaps.run (.start 64 4096 fun _ => 0) [.allocate 40 8, .deallocate 4112])).map
      (fun r => (r.2, r.1.live, r.1.allocator.freeBlocks)) = some ([4112, 0], [], [⟨4096, 56⟩]) := by
    decide +kernel
  obtain ⟨⟨h, os⟩, hr, hout⟩ := Option.map_eq_some_iff.mp hrun
  simp only [Prod.mk.injEq] at hout
  obtain ⟨hos, hlive, hfree⟩ := hout
  refine ⟨h, os, hr, hos, hlive, hfree, fun hc => ?_⟩
  have hwhole := hc.whole hlive
  rw [hfree] at hwhole
  exact absurd hwhole (by decide)

end TgeCore.Memory
