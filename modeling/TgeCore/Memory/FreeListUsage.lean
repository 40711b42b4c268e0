import TgeCore.Memory.Requests

namespace TgeCore.Memory
open Library Library.ByteMemory Library.Extents

variable {h h' : Heap} {es : List Extent} {a : Allocation} {op : HeapOp} {o : UInt64}

/-- What the owners of the live allocations asked for. -/
def Heap.requested (h : Heap) : Nat := (h.live.map fun a => a.size.toNat).sum

/-- GetCurrentUsage is the number of requested bytes that are live. -/
def Heap.UsageExact (h : Heap) : Prop := h.allocator.tracked.currentUsage.toNat = h.requested

instance (h : Heap) : Decidable h.UsageExact := inferInstanceAs (Decidable (_ = _))

/-- A Deallocate is of an allocation with room for a free block in front of its header. -/
def Heap.ReleasesPadded (h : Heap) : HeapOp → Prop
  | .deallocate ptr => ∀ a ∈ h.live, a.ptr = ptr → 16 ≤ a.padding.toNat
  | _ => True

instance (h : Heap) (op : HeapOp) : Decidable (h.ReleasesPadded op) :=
  match op with
  | .allocate _ _ => isTrue trivial
  | .deallocate _ => inferInstanceAs (Decidable (∀ a ∈ h.live, _ → _))
  | .write _ _ => isTrue trivial

/-- What is requested lies apart and inside of the buffer, so its size fits in 64 bits. -/
theorem Sound.requested_lt (hs : Sound h es) : h.requested < 2 ^ 64 := by
  have happart : (h.live.map Allocation.extent).Pairwise Apart := List.pairwise_map.mpr hs.apart
  have hinside : ∀ e ∈ h.live.map Allocation.extent, h.allocator.buffer.toNat ≤ e.addr ∧
      e.stop ≤ h.allocator.buffer.toNat + h.allocator.capacity.toNat := by
    intro e he
    obtain ⟨a, ha, rfl⟩ := List.mem_map.mp he
    exact (hs.live a ha).inside
  have htotal := total_le_of_apart happart hinside
  have hsizes (live : List Allocation) :
      (live.map fun a => a.size.toNat).sum ≤ total (live.map Allocation.extent) := by
    induction live with
    | nil => rfl
    | cons a live ih =>
      simp only [List.map_cons, List.sum_cons, total_cons, Allocation.extent] at ih ⊢
      omega
  have hsize := hsizes h.live
  have hroom := hs.room
  unfold Heap.requested
  omega

/-- An Allocate that returns a block records the size asked for. -/
theorem Sound.step_tracked (hs : Sound h es) {size alignment : UInt64}
    (hst : h.step (.allocate size alignment) = some (h', o)) (ho : o ≠ 0) :
    h'.allocator.tracked = h.allocator.tracked.recordAlloc size := by
  have hop := Heap.allows_of_step hst
  simp only [Heap.step, hop, if_true] at hst
  rcases hs.allocate_found size hop.1 with ⟨hrun, _⟩ | ⟨_, _, _, prev, current, _, _, _, _, _, hrun, _⟩
  · simp only [hrun, Option.map_some, if_true, Option.some.injEq, Prod.mk.injEq] at hst
    exact absurd hst.2.symm ho
  · simp only [hrun, Option.map_some] at hst
    split at hst
    · simp only [Option.some.injEq, Prod.mk.injEq] at hst
      exact absurd hst.2.symm ho
    · simp only [Option.some.injEq, Prod.mk.injEq] at hst
      obtain ⟨rfl, -⟩ := hst
      exact take_tracked ..

/-- What the owners of the other allocations asked for stays. -/
theorem Sound.requested_released (hs : Sound h es) (ha : a ∈ h.live) (s' : CFreeListAllocator) :
    (h.released s' a.ptr).requested + a.size.toNat = h.requested :=
  hs.sum_released ha fun b => b.size.toNat

/-- Deallocate keeps the usage exact if the new free block's fields miss the header that it reads
the size from. Without padding they lie on top of it, and sixteen bytes too many are recorded. -/
theorem Sound.usage_released (hs : Sound h es) (hexact : h.UsageExact) (ha : a ∈ h.live)
    (hst : heaps.step h (.deallocate a.ptr) = some (h', o)) :
    (16 ≤ a.padding.toNat → h'.UsageExact) ∧ (a.padding = 0 → ¬ h'.UsageExact) := by
  have hop := Heap.allows_of_step hst
  obtain ⟨s', recorded, hrun, _, _, _, hrecorded, hpadded, hbare⟩ := hs.released ha
  simp only [heaps_step, Heap.step, hop, if_true, hrun, Option.map_some, Option.some.injEq, Prod.mk.injEq] at hst
  obtain ⟨rfl, -⟩ := hst
  have hrest := hs.requested_released ha s'
  have hfits := hs.requested_lt
  have husage : (h.released s' a.ptr).allocator.tracked.currentUsage =
      h.allocator.tracked.currentUsage - recorded := congrArg CTrackedAllocator.currentUsage hrecorded
  unfold Heap.UsageExact at hexact ⊢
  rw [husage, UInt64.toNat_sub, hexact]
  constructor
  · intro h16
    rw [hpadded h16]
    omega
  · intro hzero
    rw [hbare hzero, Allocation.extent, hzero, UInt64.toNat_zero]
    simp only
    omega

/-- One call keeps the usage exact, if it is no Deallocate of an allocation without that room. -/
theorem Sound.step_usage (hs : Sound h es) (hexact : h.UsageExact) (hreleases : h.ReleasesPadded op)
    (hst : heaps.step h op = some (h', o)) : h'.UsageExact := by
  rcases hs.step_cases (Heap.allows_of_step hst) with ⟨t, hrun, _, _, _, htracked, hlive, _⟩ |
    ⟨pre, e, post, a, s', rfl, rfl, _, _, _, htake, hrun⟩ | ⟨a, _, _, ha, rfl, _⟩
  · obtain ⟨rfl, rfl⟩ : t = h' ∧ 0 = o := by simpa [hrun] using hst
    rw [Heap.UsageExact, htracked, Heap.requested, hlive]
    exact hexact
  · obtain ⟨rfl, rfl⟩ : _ = h' ∧ a.ptr = o := by simpa [hrun] using hst
    have hptr : a.ptr ≠ 0 := by
      intro hzero
      have hplaced := htake.placed
      rw [hzero, UInt64.toNat_zero] at hplaced
      omega
    have hfits := (hs.allocated htake).requested_lt
    rw [Heap.UsageExact, hs.step_tracked hrun hptr]
    simp only [Heap.UsageExact, CTrackedAllocator.recordAlloc, Heap.requested, List.map_cons,
      List.sum_cons] at hfits hexact ⊢
    rw [UInt64.toNat_add, hexact]
    omega
  · exact (hs.usage_released hexact ha hst).1 (hreleases a ha rfl)

section Runs
variable {capacity buffer : UInt64} {memory : Memory}

theorem usageExact_start : (Heap.start capacity buffer memory).UsageExact := by
  have htracked : (CFreeListAllocator.create capacity buffer memory).tracked = {} := by
    unfold CFreeListAllocator.create
    split
    · split
      · rfl
      · rfl
    · rfl
  rw [Heap.UsageExact, Heap.start, htracked]
  rfl

/-- In a run whose Deallocates are all of allocations with enough padding the usage is what is
requested and live. The Deallocate of an allocation without padding always breaks that. -/
theorem heaps_usage_exact (hroom : buffer.toNat + capacity.toNat < 2 ^ 64) {ops : List HeapOp} {os : List UInt64}
    (hr : heaps.run (.start capacity buffer memory) ops = some (h, os)) :
    (heaps.Along Heap.ReleasesPadded (.start capacity buffer memory) ops → h.UsageExact) ∧
      (h.UsageExact → ∀ a ∈ h.live, a.padding = 0 → ∀ h' o, heaps.step h (.deallocate a.ptr) = some (h', o) →
        ¬ h'.UsageExact) := by
  by_cases hlarge : (capacity = 0 ∨ buffer = 0) ∨ 16 ≤ capacity.toNat
  · have hstart : ∃ es, Sound (.start capacity buffer memory) es := sound_start_large hroom hlarge
    have hkeep (s : Heap) (op : HeapOp) (t : Heap) (o : UInt64) (hs : ∃ es, Sound s es)
        (hst : heaps.step s op = some (t, o)) : ∃ es, Sound t es := by
      obtain ⟨es, hs⟩ := hs
      obtain ⟨t', o', es', hst', hs'⟩ := hs.step (Heap.allows_of_step hst)
      obtain ⟨rfl, rfl⟩ : t' = t ∧ o' = o := by simpa using hst'.symm.trans hst
      exact ⟨es', hs'⟩
    constructor
    · intro halong
      refine (halong.keeps (fun s => (∃ es, Sound s es) ∧ s.UsageExact) ?_ ⟨hstart, usageExact_start⟩ hr).2
      intro s op t o hs hreleases hst
      obtain ⟨hsound, hexact⟩ := hs
      refine ⟨hkeep s op t o hsound hst, ?_⟩
      obtain ⟨es, hs⟩ := hsound
      exact hs.step_usage hexact hreleases hst
    · intro hexact a ha hbare h' o hst
      obtain ⟨es, hs⟩ := Machine.run_keeps (fun s => ∃ es, Sound s es) hkeep hstart hr
      exact (hs.usage_released hexact ha hst).2 hbare
  · obtain ⟨hnone, hsmall⟩ := not_or.mp hlarge
    have hsame : h = .start capacity buffer memory := by
      refine Machine.run_keeps (fun s => s = .start capacity buffer memory) ?_ rfl hr
      intro s op t o hs hst
      subst hs
      exact step_small (fun _ => (not_or.mp hnone).2) (Nat.not_le.mp hsmall) hst
    subst hsame
    refine ⟨fun _ => usageExact_start, fun _ a ha => ?_⟩
    cases ha

end Runs

/-- An allocation at a multiple of 64, and one without padding that stays. -/
theorem heaps_usage_exact_padded : ∃ h os,
    heaps.run (.start 256 4096 fun _ => 0) [.allocate 8 64, .allocate 24 8, .deallocate 4160] = some (h, os) ∧
    h.UsageExact := by
  have hrun : (heaps.run (.start 256 4096 fun _ => 0) [.allocate 8 64, .allocate 24 8,
      .deallocate 4160]).isSome = true := by decide +kernel
  obtain ⟨⟨h, os⟩, hr⟩ := Option.isSome_iff_exists.mp hrun
  exact ⟨h, os, hr, (heaps_usage_exact (by decide) hr).1 (by decide +kernel)⟩

/-- Deallocate of 24 bytes at the start of the buffer takes 40 off the usage. -/
theorem heaps_usage_wraps : ∃ h os,
    heaps.run (.start 256 4096 fun _ => 0) [.allocate 24 8, .deallocate 4112] = some (h, os) ∧
    h.live = [] ∧ h.allocator.tracked.currentUsage = 0 - 16 ∧ ¬ h.UsageExact := by
  have hrun : (heaps.run (.start 256 4096 fun _ => 0) [.allocate 24 8, .deallocate 4112]).map
      (fun r => (r.1.live, r.1.allocator.tracked.currentUsage)) = some ([], 0 - 16) := by
    decide +kernel
  obtain ⟨⟨h, os⟩, hr, hout⟩ := Option.map_eq_some_iff.mp hrun
  simp only [Prod.mk.injEq] at hout
  obtain ⟨hlive, husage⟩ := hout
  refine ⟨h, os, hr, hlive, husage, ?_⟩
  rw [Heap.UsageExact, husage, Heap.requested, hlive]
  decide

end TgeCore.Memory
