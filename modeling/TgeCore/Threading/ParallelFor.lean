import Mathlib.Data.List.Count
import Mathlib.Data.List.Nodup
import TgeCore.Library.Partition
import TgeCore.Threading.JobGroups

namespace TgeCore.Threading
open Library

/-- The arithmetic is that of 32-bit integers: the sum may wrap. -/
def computeParallelChunkCount (numThreads : Nat) (numItems grainSize : UInt32) : UInt32 :=
  if 0 < numThreads then
    let effectiveGrain := if 0 < grainSize then grainSize else 1
    let chunkLimit := (numItems + effectiveGrain - 1) / effectiveGrain
    min (UInt32.ofNat numThreads) chunkLimit
  else 0

def chunkBegin (begin numItems numChunks chunk : UInt32) : UInt32 :=
  begin + (numItems.toUInt64 * chunk.toUInt64 / numChunks.toUInt64).toUInt32

def chunkEnd (begin numItems numChunks chunk : UInt32) : UInt32 :=
  begin + (numItems.toUInt64 * (chunk + 1).toUInt64 / numChunks.toUInt64).toUInt32

/-- The indices that a loop from one to the other goes through. -/
def indices (index stop : UInt32) : List UInt32 :=
  if index < stop then index :: indices (index + 1) stop else []
termination_by stop.toNat - index.toNat
decreasing_by
  rename_i hlt
  have hlt := UInt32.lt_iff_toNat_lt.mp hlt
  have hstop := stop.toNat_lt
  rw [UInt32.toNat_add, show (1 : UInt32).toNat = 1 from rfl, Nat.mod_eq_of_lt (by omega)]
  omega

/-- What ParallelFor is called with, its local group and how many threads the pool has. -/
structure ParallelForCall (G : Type) where
  group : G
  begin : UInt32
  stop : UInt32
  grainSize : UInt32
  numThreads : Nat

def ParallelForCall.numItems {G : Type} (c : ParallelForCall G) : UInt32 :=
  if c.begin < c.stop then c.stop - c.begin else 0

def ParallelForCall.numChunks {G : Type} (c : ParallelForCall G) : UInt32 :=
  computeParallelChunkCount c.numThreads c.numItems c.grainSize

def ParallelForCall.chunkBounds {G : Type} (c : ParallelForCall G) (chunk : UInt32) : UInt32 × UInt32 :=
  (chunkBegin c.begin c.numItems c.numChunks chunk, chunkEnd c.begin c.numItems c.numChunks chunk)

/-- Where the calling thread is: before the choice between the two loops, before a
chunk's SubmitJob, in it, in Wait, or back. -/
inductive ParallelForAt where
  | called
  | submitting (chunk : UInt32)
  | submitted (chunk : UInt32) (call : Nat)
  | waiting (call : Nat)
  | returned
deriving DecidableEq

/-- A ParallelFor among all other threads, with the bounds that its jobs have captured,
in the order of their SubmitJob calls. -/
structure ParallelForState (G : Type) where
  jobs : CJobSystem G
  caller : ParallelForAt := .called
  captured : List (UInt32 × UInt32) := []

/-- The calling thread goes on, or another thread does. -/
inductive ParallelForMove (G : Type) where
  | caller
  | thread (move : JobMove G)
deriving DecidableEq

/-- The group that a call is made on. -/
def JobMove.group {G : Type} : JobMove G → Option G
  | .submit group _ => some group
  | .wait group => some group
  | .cancel group => some group
  | _ => none

/-- The indices that a step calls the function with: those of the job that it starts. -/
def ParallelForState.calls {G : Type} [DecidableEq G] (p : ParallelForState G) (group : G) (out : JobSeen G) :
    List UInt32 :=
  (out.jobs group .started).flatMap fun job =>
    match p.captured[job]? with
    | some (chunkBegin, chunkEnd) => indices chunkBegin chunkEnd
    | none => []

/-- Nobody but the calling thread has the group, and it makes one call after the other. -/
def ParallelForCall.step {G : Type} [DecidableEq G] (parent : G → Option G) (c : ParallelForCall G)
    (p : ParallelForState G) : ParallelForMove G → Option (ParallelForState G × List UInt32)
  | .caller =>
    match p.caller with
    | .called =>
      if 1 < c.numChunks then some ({ p with caller := .submitting 0 }, [])
      else some ({ p with caller := .returned }, indices c.begin c.stop)
    | .submitting chunk =>
      if chunk < c.numChunks then
        (p.jobs.begin (.submitting c.group .normal)).map fun next =>
          ({ jobs := next.1
             caller := .submitted chunk p.jobs.calls.length
             captured := p.captured ++ [c.chunkBounds chunk] }, [])
      else
        (p.jobs.begin (.waiting c.group)).map fun next =>
          ({ p with jobs := next.1, caller := .waiting p.jobs.calls.length }, [])
    | .submitted chunk call =>
      if p.jobs.calls[call]? = some .done then some ({ p with caller := .submitting (chunk + 1) }, []) else none
    | .waiting call =>
      if p.jobs.calls[call]? = some .done then some ({ p with caller := .returned }, []) else none
    | .returned => none
  | .thread move =>
    if move.group = some c.group then none
    else (p.jobs.step parent move).map fun next => ({ p with jobs := next.1 }, p.calls c.group next.2)

/-- The inputs are the threads' steps, the outputs the indices that each step calls the
function with. -/
def parallelFor {G : Type} [DecidableEq G] (parent : G → Option G) (c : ParallelForCall G) :
    Machine (ParallelForState G) (ParallelForMove G) (List UInt32) := ⟨c.step parent⟩

def ParallelForCall.start {G : Type} (c : ParallelForCall G) : ParallelForState G :=
  { jobs := .create c.numThreads }

section Bounds
variable {numThreads : Nat} {begin stop numItems grainSize numChunks chunk index : UInt32}

theorem indices_map : (indices index stop).map UInt32.toNat =
    List.range' index.toNat (stop.toNat - index.toNat) := by
  fun_induction indices index stop with
  | case1 index hlt ih =>
    have hlt := UInt32.lt_iff_toNat_lt.mp hlt
    have hstop := stop.toNat_lt
    have hnext : (index + 1).toNat = index.toNat + 1 := by
      rw [UInt32.toNat_add, show (1 : UInt32).toNat = 1 from rfl, Nat.mod_eq_of_lt (by omega)]
    rw [List.map_cons, ih, hnext, ← List.range'_succ]
    congr 1
    omega
  | case2 index hge =>
    have hge := UInt32.le_iff_toNat_le.mp (UInt32.not_lt.mp hge)
    rw [Nat.sub_eq_zero_of_le hge]
    rfl

/-- The loop goes through every index of its range once and through no other. -/
theorem count_indices (i : UInt32) :
    (indices index stop).count i = if index ≤ i ∧ i < stop then 1 else 0 := by
  have hnodup : (indices index stop).Nodup := by
    rw [← List.nodup_map_iff fun _ _ => UInt32.toNat_inj.mp, indices_map]
    exact List.nodup_range'
  have hmem : i ∈ indices index stop ↔ index ≤ i ∧ i < stop := by
    have hmap : i ∈ indices index stop ↔ i.toNat ∈ (indices index stop).map UInt32.toNat :=
      (List.mem_map_of_injective fun _ _ => UInt32.toNat_inj.mp).symm
    rw [hmap, indices_map, List.mem_range'_1, UInt32.le_iff_toNat_le, UInt32.lt_iff_toNat_lt]
    omega
  rw [hnodup.count]
  simp only [hmem]

theorem minUInt32_le (a b : UInt32) : min a b ≤ b := by
  change (if a ≤ b then a else b) ≤ b
  split
  · assumption
  · exact UInt32.le_refl b

/-- The limit on the chunks is the rounded quotient, of a sum that may have wrapped. -/
theorem chunkLimit_toNat (hgrain : 0 < grainSize) : ((numItems + grainSize - 1) / grainSize).toNat =
    (numItems.toNat + grainSize.toNat - 1) % 2 ^ 32 / grainSize.toNat := by
  have hpos : 0 < grainSize.toNat := UInt32.lt_iff_toNat_lt.mp hgrain
  have hitems := numItems.toNat_lt
  have hsize := grainSize.toNat_lt
  rw [UInt32.toNat_div, UInt32.toNat_sub, UInt32.toNat_add, show (1 : UInt32).toNat = 1 from rfl]
  congr 1
  omega

theorem chunkCount_le (numThreads : Nat) (numItems grainSize : UInt32) :
    (computeParallelChunkCount numThreads numItems grainSize).toNat ≤ numItems.toNat := by
  unfold computeParallelChunkCount
  split
  · have hgrain : 0 < if 0 < grainSize then grainSize else 1 := by
      split
      · assumption
      · decide
    generalize (if 0 < grainSize then grainSize else 1) = grain at hgrain
    have hpos : 0 < grain.toNat := UInt32.lt_iff_toNat_lt.mp hgrain
    have hlimit : ((numItems + grain - 1) / grain).toNat ≤ numItems.toNat := by
      rw [chunkLimit_toNat hgrain]
      calc (numItems.toNat + grain.toNat - 1) % 2 ^ 32 / grain.toNat
          ≤ (numItems.toNat + grain.toNat - 1) / grain.toNat := Nat.div_le_div_right (Nat.mod_le _ _)
        _ ≤ numItems.toNat := by
          apply Nat.le_of_lt_succ
          rw [Nat.div_lt_iff_lt_mul hpos, Nat.succ_mul]
          have := Nat.le_mul_of_pos_right numItems.toNat hpos
          omega
    exact (UInt32.le_iff_toNat_le.mp (minUInt32_le _ _)).trans hlimit
  · exact Nat.zero_le _

/-- A range, with chunks of it that are not more than its items. -/
structure Chunked (begin stop numChunks : UInt32) : Prop where
  ordered : begin ≤ stop
  some : 0 < numChunks
  few : numChunks.toNat ≤ stop.toNat - begin.toNat

theorem items_toNat (hordered : begin ≤ stop) : (stop - begin).toNat = stop.toNat - begin.toNat := by
  have hle := UInt32.le_iff_toNat_le.mp hordered
  have hstop := stop.toNat_lt
  rw [UInt32.toNat_sub]
  omega

/-- No step of the arithmetic on a chunk's bounds wraps or truncates. -/
structure Exact (begin numItems numChunks chunk : UInt32) : Prop where
  next : (chunk + 1).toNat = chunk.toNat + 1
  product : (numItems.toUInt64 * chunk.toUInt64).toNat = numItems.toNat * chunk.toNat
  nextProduct : (numItems.toUInt64 * (chunk + 1).toUInt64).toNat = numItems.toNat * (chunk.toNat + 1)
  quotient : (numItems.toUInt64 * chunk.toUInt64 / numChunks.toUInt64).toUInt32.toNat =
    numItems.toNat * chunk.toNat / numChunks.toNat
  nextQuotient : (numItems.toUInt64 * (chunk + 1).toUInt64 / numChunks.toUInt64).toUInt32.toNat =
    numItems.toNat * (chunk.toNat + 1) / numChunks.toNat
  chunkBegin : (chunkBegin begin numItems numChunks chunk).toNat =
    begin.toNat + numItems.toNat * chunk.toNat / numChunks.toNat
  chunkEnd : (chunkEnd begin numItems numChunks chunk).toNat =
    begin.toNat + numItems.toNat * (chunk.toNat + 1) / numChunks.toNat

theorem product_toNat (a b : UInt32) : (a.toUInt64 * b.toUInt64).toNat = a.toNat * b.toNat := by
  rw [UInt64.toNat_mul, UInt32.toNat_toUInt64, UInt32.toNat_toUInt64]
  apply Nat.mod_eq_of_lt
  calc a.toNat * b.toNat < 2 ^ 32 * 2 ^ 32 := Nat.mul_lt_mul'' a.toNat_lt b.toNat_lt
    _ = 2 ^ 64 := rfl

theorem quotient_toNat {a b c : UInt32} (hle : a.toNat * b.toNat / c.toNat < 2 ^ 32) :
    (a.toUInt64 * b.toUInt64 / c.toUInt64).toUInt32.toNat = a.toNat * b.toNat / c.toNat := by
  rw [UInt64.toNat_toUInt32, UInt64.toNat_div, product_toNat, UInt32.toNat_toUInt64]
  exact Nat.mod_eq_of_lt hle

theorem Chunked.exact (h : Chunked begin stop numChunks) (hchunk : chunk < numChunks) :
    Exact begin (stop - begin) numChunks chunk := by
  have hlt := UInt32.lt_iff_toNat_lt.mp hchunk
  have hle := UInt32.le_iff_toNat_le.mp h.ordered
  have hchunks := numChunks.toNat_lt
  have hstop := stop.toNat_lt
  have hitems := items_toNat h.ordered
  have hpos : 0 < numChunks.toNat := UInt32.lt_iff_toNat_lt.mp h.some
  have hnext : (chunk + 1).toNat = chunk.toNat + 1 := by
    rw [UInt32.toNat_add, show (1 : UInt32).toNat = 1 from rfl, Nat.mod_eq_of_lt (by omega)]
  have hcut : cut (stop - begin).toNat numChunks.toNat chunk.toNat ≤ (stop - begin).toNat :=
    cut_le hpos hlt.le
  have hcut' : cut (stop - begin).toNat numChunks.toNat (chunk.toNat + 1) ≤ (stop - begin).toNat :=
    cut_le hpos hlt
  have hquotient := quotient_toNat (hcut.trans_lt (stop - begin).toNat_lt)
  have hquotient' := quotient_toNat (hnext ▸ hcut'.trans_lt (stop - begin).toNat_lt)
  rw [hnext] at hquotient'
  refine ⟨hnext, product_toNat _ _, by rw [product_toNat, hnext], hquotient, hquotient', ?_, ?_⟩
  · rw [TgeCore.Threading.chunkBegin, UInt32.toNat_add, hquotient]
    apply Nat.mod_eq_of_lt
    unfold cut at hcut
    omega
  · rw [TgeCore.Threading.chunkEnd, UInt32.toNat_add, hquotient']
    apply Nat.mod_eq_of_lt
    unfold cut at hcut'
    omega

end Bounds

section Chunks
variable {G : Type} {c : ParallelForCall G} {chunk : Nat}

/-- The bounds of all chunks, one after the other. -/
def ParallelForCall.chunks (c : ParallelForCall G) : List (UInt32 × UInt32) :=
  (List.range c.numChunks.toNat).map fun chunk => c.chunkBounds (UInt32.ofNat chunk)

/-- The chunks of a call split its range, and their bounds are computed exactly. -/
structure ParallelForCall.Splits (c : ParallelForCall G) : Prop where
  first : c.chunks.head?.map Prod.fst = some c.begin
  last : c.chunks.getLast?.map Prod.snd = some c.stop
  consecutive : c.chunks.IsChain fun b b' => b.2 = b'.1
  nonempty : ∀ b ∈ c.chunks, b.1 < b.2
  even : ∀ b ∈ c.chunks, ∀ b' ∈ c.chunks, b.2.toNat - b.1.toNat ≤ b'.2.toNat - b'.1.toNat + 1
  exact : ∀ chunk < c.numChunks, Exact c.begin c.numItems c.numChunks chunk

theorem ParallelForCall.chunked (hordered : c.begin ≤ c.stop) (hmany : 1 < c.numChunks) :
    Chunked c.begin c.stop c.numChunks ∧ c.numItems = c.stop - c.begin := by
  have hmany := UInt32.lt_iff_toNat_lt.mp hmany
  have hfew : c.numChunks.toNat ≤ c.numItems.toNat := chunkCount_le _ _ _
  have hone : (1 : UInt32).toNat = 1 := rfl
  have hitems : c.numItems = c.stop - c.begin := by
    by_contra hne
    have hzero : c.numItems = 0 := by
      unfold numItems at hne ⊢
      split at hne
      · exact absurd rfl hne
      · rename_i hge
        exact if_neg hge
    rw [hzero] at hfew
    exact absurd (hone ▸ hmany) (by simpa using hfew.trans (Nat.zero_le 1))
  refine ⟨⟨hordered, UInt32.lt_iff_toNat_lt.mpr (Nat.zero_lt_of_lt hmany), ?_⟩, hitems⟩
  rwa [hitems, items_toNat hordered] at hfew

/-- A chunk's bounds are two neighbouring cuts of the range. -/
theorem ParallelForCall.chunkBounds_toNat (hordered : c.begin ≤ c.stop) (hmany : 1 < c.numChunks)
    (hchunk : chunk < c.numChunks.toNat) :
    (c.chunkBounds (UInt32.ofNat chunk)).1.toNat =
      c.begin.toNat + cut (c.stop.toNat - c.begin.toNat) c.numChunks.toNat chunk ∧
    (c.chunkBounds (UInt32.ofNat chunk)).2.toNat =
      c.begin.toNat + cut (c.stop.toNat - c.begin.toNat) c.numChunks.toNat (chunk + 1) := by
  obtain ⟨hchunked, hitems⟩ := c.chunked hordered hmany
  have hnat : (UInt32.ofNat chunk).toNat = chunk :=
    UInt32.toNat_ofNat_of_lt' (hchunk.trans c.numChunks.toNat_lt)
  have hexact := hchunked.exact (UInt32.lt_iff_toNat_lt.mpr (hnat.symm ▸ hchunk))
  unfold chunkBounds
  rw [hitems, hexact.chunkBegin, hexact.chunkEnd, hnat, items_toNat hordered]
  exact ⟨rfl, rfl⟩

theorem ParallelForCall.splits (hordered : c.begin ≤ c.stop) (hmany : 1 < c.numChunks) : c.Splits := by
  obtain ⟨hchunked, hitems⟩ := c.chunked hordered hmany
  have hbounds := fun {k : Nat} (hk : k < c.numChunks.toNat) => chunkBounds_toNat hordered hmany hk
  have hpos : 0 < c.numChunks.toNat := UInt32.lt_iff_toNat_lt.mp hchunked.some
  have hle := UInt32.le_iff_toNat_le.mp hordered
  have hmem : ∀ b ∈ c.chunks, ∃ k < c.numChunks.toNat, b = c.chunkBounds (UInt32.ofNat k) := by
    intro b hb
    obtain ⟨k, hk, rfl⟩ := List.mem_map.mp hb
    exact ⟨k, List.mem_range.mp hk, rfl⟩
  obtain ⟨n, hn⟩ := Nat.exists_eq_add_one_of_ne_zero hpos.ne'
  refine ⟨?_, ?_, ?_, fun b hb => ?_, fun b hb b' hb' => ?_, fun k hk => hitems ▸ hchunked.exact hk⟩
  · have hfirst := (hbounds hpos).1
    rw [cut_zero, Nat.add_zero] at hfirst
    rw [chunks, hn, List.range_succ_eq_map]
    exact congrArg some (UInt32.toNat_inj.mp hfirst)
  · have hlast := (hbounds (k := n) (by omega)).2
    rw [← hn, cut_self hpos, Nat.add_sub_cancel' hle] at hlast
    rw [chunks, hn, List.range_succ, List.map_append, List.map_singleton, List.getLast?_concat]
    exact congrArg some (UInt32.toNat_inj.mp hlast)
  · rw [List.isChain_iff_getElem]
    intro k hk
    rw [chunks, List.length_map, List.length_range] at hk
    simp only [chunks, List.getElem_map, List.getElem_range]
    apply UInt32.toNat_inj.mp
    rw [(hbounds (by omega)).2, (hbounds hk).1]
  · obtain ⟨k, hk, rfl⟩ := hmem b hb
    rw [UInt32.lt_iff_toNat_lt, (hbounds hk).1, (hbounds hk).2]
    exact Nat.add_lt_add_left (cut_lt_succ hpos hchunked.few) _
  · obtain ⟨k, hk, rfl⟩ := hmem b hb
    obtain ⟨k', hk', rfl⟩ := hmem b' hb'
    rw [(hbounds hk).1, (hbounds hk).2, (hbounds hk').1, (hbounds hk').2, Nat.add_sub_add_left, Nat.add_sub_add_left]
    exact cut_even hpos

/-- All chunks together are the range. -/
theorem ParallelForCall.chunks_indices (hordered : c.begin ≤ c.stop) (hmany : 1 < c.numChunks) :
    (c.chunks.flatMap fun b => indices b.1 b.2) = indices c.begin c.stop := by
  have hpos : 0 < c.numChunks.toNat := UInt32.lt_iff_toNat_lt.mp (c.chunked hordered hmany).1.some
  apply List.map_injective_iff.mpr fun _ _ => UInt32.toNat_inj.mp
  rw [List.map_flatMap, indices_map]
  calc c.chunks.flatMap (fun b => (indices b.1 b.2).map UInt32.toNat)
      = (List.range c.numChunks.toNat).flatMap fun k =>
          List.range' (c.begin.toNat + cut (c.stop.toNat - c.begin.toNat) c.numChunks.toNat k)
            (cut (c.stop.toNat - c.begin.toNat) c.numChunks.toNat (k + 1) -
              cut (c.stop.toNat - c.begin.toNat) c.numChunks.toNat k) := by
        rw [chunks, List.flatMap_map]
        refine List.flatMap_congr fun k hk => ?_
        have hbounds := chunkBounds_toNat hordered hmany (List.mem_range.mp hk)
        rw [indices_map, hbounds.1, hbounds.2, Nat.add_sub_add_left]
    _ = List.range' c.begin.toNat (c.stop.toNat - c.begin.toNat) := by rw [flatMap_cut hpos, cut_self hpos]

end Chunks

end TgeCore.Threading
