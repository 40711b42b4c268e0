import TgeCore.Memory.Tracking
import TgeCore.Library.Machine
import Mathlib.Algebra.Group.Nat.Defs

namespace TgeCore.Memory
open Library

/-- An allocation that the tracker was told of, and whether that was since the last Reset. -/
structure Tracked where
  category : CategoryId
  bytes : UInt64
  fresh : Bool := true
deriving DecidableEq

/-- The tracker in use, with the live allocations and the largest number of bytes
of each category that was ever live at once. -/
structure Books where
  tracker : Tracker := {}
  live : List Tracked := []
  most : CategoryId → Nat := fun _ => 0

inductive BooksOp where
  | allocate (category : CategoryId) (bytes : UInt64)
  | deallocate (a : Tracked)
  | reset
deriving DecidableEq

def liveBytes (category : CategoryId) : List Tracked → Nat
  | [] => 0
  | a :: rest => (if a.category = category then a.bytes.toNat else 0) + liveBytes category rest

/-- The bytes that were allocated since the last Reset. -/
def freshBytes (category : CategoryId) (live : List Tracked) : Nat :=
  liveBytes category (live.filter Tracked.fresh)

/-- TrackAllocation, TrackDeallocation of a live allocation, or Reset, which the
allocations outlive. -/
def Books.step (b : Books) : BooksOp → Option (Books × Unit)
  | .allocate category bytes =>
    (b.tracker.trackAllocation category bytes).map fun (_, tracker) =>
      let live := ⟨category, bytes, true⟩ :: b.live
      (⟨tracker, live, fun c => max (b.most c) (liveBytes c live)⟩, ())
  | .deallocate a =>
    if a ∈ b.live then
      (b.tracker.trackDeallocation a.category a.bytes).map fun (_, tracker) =>
        ({ b with tracker, live := b.live.erase a }, ())
    else none
  | .reset =>
    some ({ b with
      tracker := b.tracker.reset, live := b.live.map fun a => { a with fresh := false } }, ())

def books : Machine Books BooksOp Unit := ⟨Books.step⟩

@[simp] theorem books_step (b : Books) (op : BooksOp) : books.step b op = b.step op := rfl

/-- What is released was allocated since the last Reset, and what was allocated since
then can be counted in 64 bits. -/
def Books.Accounted (b : Books) : BooksOp → Prop
  | .allocate category bytes => ∀ h : category.toNat < MaxCategories,
      b.tracker.categoryStats[category.toNat].allocated.toNat + bytes.toNat < 2 ^ 64
  | .deallocate a => a.fresh = true
  | .reset => True

instance (b : Books) (op : BooksOp) : Decidable (b.Accounted op) :=
  match op with
  | .allocate _ _ => inferInstanceAs (Decidable (∀ _ : _, _))
  | .deallocate _ => inferInstanceAs (Decidable (_ = _))
  | .reset => isTrue trivial

/-- In every category the totals can be subtracted, and the peak lies between what is
in use and what was ever live. -/
def Books.Exact (b : Books) : Prop :=
  ∀ (category : CategoryId) (h : category.toNat < MaxCategories),
    let stats := b.tracker.categoryStats[category.toNat]
    stats.deallocated ≤ stats.allocated ∧
      stats.getCurrentUsage.toNat = stats.allocated.toNat - stats.deallocated.toNat ∧
      stats.getCurrentUsage ≤ stats.peakUsage ∧ stats.peakUsage.toNat ≤ b.most category

/-- The invariant of one category: its totals differ by the bytes that are live since
the last Reset. -/
structure SStats.Balanced (stats : SStats) (fresh live most : Nat) : Prop where
  balance : stats.allocated.toNat = stats.deallocated.toNat + fresh
  peak : fresh ≤ stats.peakUsage.toNat
  peakMost : stats.peakUsage.toNat ≤ most
  liveMost : live ≤ most

def Books.Sound (b : Books) : Prop :=
  ∀ (category : CategoryId) (h : category.toNat < MaxCategories),
    (b.tracker.categoryStats[category.toNat]).Balanced (freshBytes category b.live)
      (liveBytes category b.live) (b.most category)

variable {b b' : Books} {op : BooksOp} {o : Unit} {category : CategoryId} {live : List Tracked} {a : Tracked}

theorem freshBytes_le (category : CategoryId) (live : List Tracked) :
    freshBytes category live ≤ liveBytes category live := by
  induction live with
  | nil => exact Nat.le_refl 0
  | cons a live ih =>
    rw [freshBytes] at ih ⊢
    by_cases hfresh : a.fresh = true
    · rw [List.filter_cons_of_pos hfresh, liveBytes, liveBytes]
      exact Nat.add_le_add_left ih _
    · rw [List.filter_cons_of_neg hfresh, liveBytes]
      exact Nat.le_add_left_of_le ih

/-- Releasing an allocation takes its bytes off its category. -/
theorem liveBytes_erase (category : CategoryId) (ha : a ∈ live) :
    liveBytes category live =
      (if a.category = category then a.bytes.toNat else 0) + liveBytes category (live.erase a) := by
  induction live with
  | nil => cases ha
  | cons c live ih =>
    by_cases hca : c = a
    · rw [hca, List.erase_cons_head, liveBytes]
    · have hlive : a ∈ live := (List.mem_cons.mp ha).resolve_left (Ne.symm hca)
      rw [List.erase_cons_tail (by simpa using hca), liveBytes, liveBytes, ih hlive]
      omega

theorem freshBytes_erase (category : CategoryId) (ha : a ∈ live) (hfresh : a.fresh = true) :
    freshBytes category live =
      (if a.category = category then a.bytes.toNat else 0) + freshBytes category (live.erase a) := by
  rw [freshBytes, freshBytes, liveBytes_erase category (List.mem_filter.mpr ⟨ha, hfresh⟩)]
  rw [List.erase_filter]

/-- A Reset leaves no allocation that counts as new. -/
theorem freshBytes_outlived (category : CategoryId) (live : List Tracked) :
    freshBytes category (live.map fun a => { a with fresh := false }) = 0 := by
  have hnone : (live.map fun a => ({ a with fresh := false } : Tracked)).filter Tracked.fresh = [] := by
    simp [List.filter_eq_nil_iff]
  rw [freshBytes, hnone, liveBytes]

theorem liveBytes_outlived (category : CategoryId) (live : List Tracked) :
    liveBytes category (live.map fun a => { a with fresh := false }) = liveBytes category live := by
  induction live with
  | nil => rfl
  | cons a live ih => rw [List.map_cons, liveBytes, liveBytes, ih]

section Stats
variable {stats : SStats} {fresh now most : Nat}

/-- What TrackAllocation makes of a category's numbers. -/
def SStats.grown (stats : SStats) (bytes : UInt64) : SStats :=
  let added := { stats with allocated := stats.allocated + bytes, allocationCount := stats.allocationCount + 1 }
  if added.getCurrentUsage > added.peakUsage then { added with peakUsage := added.getCurrentUsage } else added

/-- What TrackDeallocation makes of them. -/
def SStats.shrunk (stats : SStats) (bytes : UInt64) : SStats :=
  { stats with deallocated := stats.deallocated + bytes, deallocationCount := stats.deallocationCount + 1 }

theorem SStats.Balanced.usage (hb : stats.Balanced fresh now most) :
    stats.deallocated ≤ stats.allocated ∧ stats.getCurrentUsage.toNat = fresh := by
  have hbalance := hb.balance
  have hle : stats.deallocated ≤ stats.allocated := UInt64.le_iff_toNat_le.mpr (by omega)
  refine ⟨hle, ?_⟩
  rw [SStats.getCurrentUsage, UInt64.toNat_sub_of_le _ _ hle]
  omega

theorem SStats.Balanced.grown (hb : stats.Balanced fresh now most) {bytes : UInt64}
    (hfresh : fresh ≤ now) (hfits : stats.allocated.toNat + bytes.toNat < 2 ^ 64) :
    (stats.grown bytes).Balanced (bytes.toNat + fresh) (bytes.toNat + now)
      (max most (bytes.toNat + now)) := by
  have hsum : (stats.allocated + bytes).toNat = stats.allocated.toNat + bytes.toNat := by
    rw [UInt64.toNat_add]
    exact Nat.mod_eq_of_lt hfits
  have hbalance := hb.balance
  have hpeak := hb.peakMost
  have husage : (stats.allocated + bytes - stats.deallocated).toNat = bytes.toNat + fresh := by
    rw [UInt64.toNat_sub_of_le _ _ (UInt64.le_iff_toNat_le.mpr (by omega)), hsum]
    omega
  have hgrown : stats.grown bytes =
      if stats.allocated + bytes - stats.deallocated > stats.peakUsage then
        { stats with
          allocated := stats.allocated + bytes
          peakUsage := stats.allocated + bytes - stats.deallocated
          allocationCount := stats.allocationCount + 1 }
      else
        { stats with
          allocated := stats.allocated + bytes
          allocationCount := stats.allocationCount + 1 } := rfl
  rw [hgrown]
  by_cases hhigh : stats.allocated + bytes - stats.deallocated > stats.peakUsage
  · rw [if_pos hhigh]
    refine ⟨?_, Nat.le_of_eq husage.symm, ?_, Nat.le_max_right _ _⟩
    · simp only [hsum]
      omega
    · rw [husage]
      omega
  · rw [if_neg hhigh]
    rw [gt_iff_lt, UInt64.lt_iff_toNat_lt, husage, Nat.not_lt] at hhigh
    refine ⟨?_, hhigh, Nat.le_trans hpeak (Nat.le_max_left _ _), Nat.le_max_right _ _⟩
    simp only [hsum]
    omega

theorem SStats.Balanced.shrunk {bytes : UInt64} (hb : stats.Balanced (bytes.toNat + fresh) now most)
    {rest : Nat} (hrest : rest ≤ now) : (stats.shrunk bytes).Balanced fresh rest most := by
  have hbalance := hb.balance
  have hpeak := hb.peak
  have hsum : (stats.deallocated + bytes).toNat = stats.deallocated.toNat + bytes.toNat := by
    rw [UInt64.toNat_add]
    have := stats.allocated.toNat_lt
    omega
  refine ⟨?_, ?_, hb.peakMost, Nat.le_trans hrest hb.liveMost⟩
  · simp only [SStats.shrunk, hsum]
    omega
  · simp only [SStats.shrunk]
    omega

end Stats

/-- A category's numbers are changed, and no others. -/
theorem set_stats {t : Tracker} (h : category.toNat < MaxCategories) (stats : SStats) (c : CategoryId)
    (hc : c.toNat < MaxCategories) :
    (t.categoryStats.set category.toNat stats h)[c.toNat] =
      if c = category then stats else t.categoryStats[c.toNat] := by
  by_cases heq : c = category
  · subst heq
    rw [if_pos rfl, Vector.getElem_set_self]
  · rw [if_neg heq, Vector.getElem_set_ne _ _ fun hsame => heq (UInt16.toNat_inj.mp hsame.symm)]

/-- Whatever the tracker counts, it counts in the numbers of one category. -/
theorem stats_of_set {t t' : Tracker} {counted : Option (Unit × Tracker)} {u : Unit} (change : SStats → SStats)
    (hcounted : counted = if h : category.toNat < MaxCategories then some ((), { t with
      categoryStats := t.categoryStats.set category.toNat (change t.categoryStats[category.toNat]) h }) else none)
    (hrun : counted = some (u, t')) (c : CategoryId) (hc : c.toNat < MaxCategories) :
    t'.categoryStats[c.toNat] =
      if c = category then change t.categoryStats[c.toNat] else t.categoryStats[c.toNat] := by
  rw [hcounted] at hrun
  by_cases h : category.toNat < MaxCategories
  · rw [dif_pos h, Option.some.injEq, Prod.mk.injEq] at hrun
    rw [← hrun.2, set_stats h]
    split
    · rename_i heq
      subst heq
      rfl
    · rfl
  · rw [dif_neg h] at hrun
    cases hrun

theorem trackAllocation_stats {t t' : Tracker} {bytes : UInt64} {u : Unit}
    (hrun : t.trackAllocation category bytes = some (u, t')) (c : CategoryId) (hc : c.toNat < MaxCategories) :
    t'.categoryStats[c.toNat] =
      if c = category then (t.categoryStats[c.toNat]).grown bytes else t.categoryStats[c.toNat] :=
  stats_of_set (fun stats => stats.grown bytes) rfl hrun c hc

theorem trackDeallocation_stats {t t' : Tracker} {bytes : UInt64} {u : Unit}
    (hrun : t.trackDeallocation category bytes = some (u, t')) (c : CategoryId) (hc : c.toNat < MaxCategories) :
    t'.categoryStats[c.toNat] =
      if c = category then (t.categoryStats[c.toNat]).shrunk bytes else t.categoryStats[c.toNat] :=
  stats_of_set (fun stats => stats.shrunk bytes) rfl hrun c hc

theorem Books.Sound.allocate (hs : b.Sound) {bytes : UInt64}
    (hfits : b.Accounted (.allocate category bytes))
    (hst : b.step (.allocate category bytes) = some (b', o)) : b'.Sound := by
  obtain ⟨⟨u, tracker⟩, hrun, heq⟩ := Option.map_eq_some_iff.mp hst
  simp only [Prod.mk.injEq] at heq
  obtain ⟨rfl, _⟩ := heq
  intro c hc
  have hbal := hs c hc
  simp only [trackAllocation_stats hrun c hc, freshBytes, List.filter_cons_of_pos, liveBytes]
  split
  · rename_i heq
    subst heq
    simp only [if_true]
    exact hbal.grown (freshBytes_le c b.live) (hfits hc)
  · rename_i hne
    simp only [if_neg (Ne.symm hne), Nat.zero_add, Nat.max_eq_left hbal.liveMost]
    exact hbal

theorem Books.Sound.deallocate (hs : b.Sound) (hfresh : a.fresh = true)
    (hst : b.step (.deallocate a) = some (b', o)) : b'.Sound := by
  simp only [Books.step] at hst
  split at hst
  · rename_i ha
    obtain ⟨⟨u, tracker⟩, hrun, heq⟩ := Option.map_eq_some_iff.mp hst
    simp only [Prod.mk.injEq] at heq
    obtain ⟨rfl, _⟩ := heq
    intro c hc
    have hbal := hs c hc
    rw [freshBytes_erase c ha hfresh] at hbal
    have hless : liveBytes c (b.live.erase a) ≤ liveBytes c b.live := by
      rw [liveBytes_erase c ha]
      exact Nat.le_add_left _ _
    simp only [trackDeallocation_stats hrun c hc]
    split
    · rename_i heq
      subst heq
      rw [if_pos rfl] at hbal
      exact hbal.shrunk hless
    · rename_i hne
      rw [if_neg (Ne.symm hne), Nat.zero_add] at hbal
      exact ⟨hbal.balance, hbal.peak, hbal.peakMost, Nat.le_trans hless hbal.liveMost⟩
  · cases hst

theorem Books.Sound.reset (hs : b.Sound) (hst : b.step .reset = some (b', o)) : b'.Sound := by
  simp only [Books.step, Option.some.injEq, Prod.mk.injEq] at hst
  obtain ⟨rfl, _⟩ := hst
  intro c hc
  simp only [freshBytes_outlived, liveBytes_outlived, Tracker.reset, Vector.getElem_replicate]
  exact ⟨rfl, Nat.zero_le _, Nat.zero_le _, (hs c hc).liveMost⟩

theorem Books.Sound.exact (hs : b.Sound) : b.Exact := by
  intro c hc
  have hbal := hs c hc
  obtain ⟨hle, husage⟩ := hbal.usage
  have hbalance := hbal.balance
  refine ⟨hle, ?_, ?_, hbal.peakMost⟩
  · rw [husage]
    omega
  · rw [UInt64.le_iff_toNat_le, husage]
    exact hbal.peak

/-- While nothing is released that was allocated before the last Reset, usage and
peak are what the live allocations say. -/
theorem books_exact {ops : List BooksOp} {os : List Unit} (hr : books.run {} ops = some (b, os))
    (haccounted : books.Along Books.Accounted {} ops) : b.Exact := by
  refine (haccounted.keeps Books.Sound (fun s op t o hs hgood hst => ?_) ?_ hr).exact
  · cases op with
    | allocate category bytes => exact hs.allocate hgood hst
    | deallocate a => exact hs.deallocate hgood hst
    | reset => exact hs.reset hst
  · intro c hc
    simp only [Vector.getElem_replicate]
    exact ⟨rfl, Nat.le_refl _, Nat.le_refl _, Nat.le_refl _⟩

theorem books_exact_once : ∃ b os,
    books.run {} [.allocate 1 100, .reset, .allocate 1 50, .deallocate ⟨1, 50, true⟩] = some (b, os) ∧
    b.Exact := by
  have hrun : (books.run {} [.allocate 1 100, .reset, .allocate 1 50,
      .deallocate ⟨1, 50, true⟩]).isSome = true := by decide +kernel
  obtain ⟨⟨b, os⟩, hr⟩ := Option.isSome_iff_exists.mp hrun
  exact ⟨b, os, hr, books_exact hr (by decide +kernel)⟩

/-- What a Reset forgot is subtracted all the same. -/
theorem books_reset_wraps : ∃ b os,
    books.run {} [.allocate 1 100, .reset, .deallocate ⟨1, 100, false⟩] = some (b, os) ∧
    b.tracker.categoryStats[1].getCurrentUsage = 0 - 100 ∧ ¬ b.Exact := by
  have hrun : (books.run {} [.allocate 1 100, .reset, .deallocate ⟨1, 100, false⟩]).map
      (fun r => (r.1.tracker.categoryStats[1].allocated, r.1.tracker.categoryStats[1].deallocated)) =
        some (0, 100) := by decide +kernel
  obtain ⟨⟨b, os⟩, hr, hout⟩ := Option.map_eq_some_iff.mp hrun
  simp only [Prod.mk.injEq] at hout
  obtain ⟨hallocated, hdeallocated⟩ := hout
  refine ⟨b, os, hr, ?_, fun hexact => ?_⟩
  · rw [SStats.getCurrentUsage, hallocated, hdeallocated]
  · have hle : b.tracker.categoryStats[1].deallocated ≤ b.tracker.categoryStats[1].allocated :=
      (hexact 1 (by decide)).1
    rw [hallocated, hdeallocated] at hle
    exact absurd hle (by decide)

end TgeCore.Memory
