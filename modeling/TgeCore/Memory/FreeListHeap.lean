import TgeCore.Memory.FreeList

namespace TgeCore.Memory
open Library.ByteMemory Library.Extents

/-- Where a list starts, when the address after its end is given. -/
def firstOr : List Extent → Nat → Nat
  | [], last => last
  | e :: _, _ => e.addr

/-- The address of the last block, when the address before the first is given. -/
def lastOr : List Extent → Nat → Nat
  | [], before => before
  | e :: rest, _ => lastOr rest e.addr

/-- The blocks' headers in memory chain them up in this order, ending at an address. -/
def Linked (m : Memory) : List Extent → Nat → Prop
  | [], _ => True
  | e :: rest, last => (load64 m e.addr).toNat = e.size ∧
      (load64 m (e.addr + 8)).toNat = firstOr rest last ∧ Linked m rest last

/-- Blocks inside of the buffer, each with room for its own header. -/
structure Blocks (lo hi : Nat) (es : List Extent) : Prop where
  ordered : Ordered es
  inside : ∀ e ∈ es, lo ≤ e.addr ∧ e.stop ≤ hi ∧ 16 ≤ e.size

/-- Header, padding and requested bytes, for an allocation placed in this block. -/
def need (e : Extent) (size alignment : UInt64) : Nat :=
  (placement (UInt64.ofNat e.addr) size alignment).totalSize.toNat

/-- The block an allocation is placed in. -/
def firstFit (es : List Extent) (size alignment : UInt64) : Option Extent :=
  es.find? (fun e => decide (need e size alignment ≤ e.size))

variable {m m' : Memory} {es pre post rest : List Extent} {a e : Extent} {lo hi last fuel : Nat}

theorem firstOr_append : firstOr (pre ++ post) last = firstOr pre (firstOr post last) := by
  cases pre <;> rfl

theorem lastOr_concat (pre : List Extent) (e : Extent) (before : Nat) :
    lastOr (pre ++ [e]) before = e.addr := by
  induction pre generalizing before with
  | nil => rfl
  | cons f pre ih => exact ih f.addr

theorem linked_append : Linked m (pre ++ post) last ↔
    Linked m pre (firstOr post last) ∧ Linked m post last := by
  induction pre with
  | nil => simp [Linked]
  | cons e pre ih => simp only [List.cons_append, Linked, ih, firstOr_append, and_assoc]

theorem linked_size (h : Linked m es last) (he : e ∈ es) : (load64 m e.addr).toNat = e.size := by
  obtain ⟨pre, post, rfl⟩ := List.append_of_mem he
  exact (linked_append.mp h).2.1

/-- Only the blocks' headers matter. -/
theorem linked_congr (h : ∀ e ∈ es, ∀ i, e.addr ≤ i → i < e.addr + 16 → m i = m' i)
    (hl : Linked m es last) : Linked m' es last := by
  induction es with
  | nil => trivial
  | cons e es ih =>
    obtain ⟨he, hrest⟩ := List.forall_mem_cons.mp h
    obtain ⟨hsize, hnext, hl⟩ := hl
    refine ⟨?_, ?_, ih hrest hl⟩
    · rw [← load64_congr fun i hlow hup => he i (by omega) (by omega)]
      exact hsize
    · rw [← load64_congr fun i hlow hup => he i (by omega) (by omega)]
      exact hnext

theorem Blocks.tail (h : Blocks lo hi (e :: es)) : Blocks lo hi es :=
  ⟨(List.pairwise_cons.mp h.ordered).2, (List.forall_mem_cons.mp h.inside).2⟩

theorem Blocks.positive (h : Blocks lo hi es) (hlo : 0 < lo) : ∀ e ∈ es, 0 < e.addr :=
  fun e he => Nat.lt_of_lt_of_le hlo (h.inside e he).1

theorem Blocks.left (h : Blocks lo hi (pre ++ post)) : Blocks lo hi pre :=
  ⟨(List.pairwise_append.mp h.ordered).1, fun e he => h.inside e (List.mem_append_left _ he)⟩

theorem Blocks.right (h : Blocks lo hi (pre ++ post)) : Blocks lo hi post :=
  ⟨(List.pairwise_append.mp h.ordered).2.1, fun e he => h.inside e (List.mem_append_right _ he)⟩

theorem Blocks.header_has (h : Blocks lo hi es) (he : e ∈ es) {i : Nat} (hlow : e.addr ≤ i)
    (hup : i < e.addr + 16) : e.Has i := by
  have := (h.inside e he).2.2
  exact ⟨hlow, by simp only [Extent.stop]; omega⟩

/-- The headers of earlier blocks end before a block starts. -/
theorem Blocks.below (h : Blocks lo hi (pre ++ e :: post)) {i : Nat} (hi : e.addr ≤ i) :
    ∀ f ∈ pre, ¬ (f.addr ≤ i ∧ i < f.addr + 16) := by
  intro f hf hin
  have := (List.pairwise_append.mp h.ordered).2.2 f hf e (by simp)
  have := (h.header_has (by simp [hf]) hin.1 hin.2).2
  omega

/-- Every block takes at least a header's room. -/
theorem Blocks.length_le (h : Blocks lo hi es) (hle : lo ≤ hi) : lo + 16 * es.length ≤ hi := by
  have hroom := total_le lo h.ordered (fun e he => ⟨(h.inside e he).1, (h.inside e he).2.1⟩) hle
  have hsum : 16 * es.length ≤ total es := by
    clear hroom
    induction es with
    | nil => simp
    | cons e es ih =>
      have := ih h.tail
      have := (h.inside e (by simp)).2.2
      simp only [List.length_cons, total_cons]
      omega
  omega

theorem ne_zero_of_toNat {block : UInt64} {addr : Nat} (haddr : block.toNat = addr) (hpos : 0 < addr) : block ≠ 0 := by
  rintro rfl
  rw [← haddr, UInt64.toNat_zero] at hpos
  cases hpos

section Walk
variable (hpos : ∀ e ∈ es, 0 < e.addr)
include hpos

/-- The first-fit loop reaches the end of the list or the first block that fits. -/
theorem findFit_spec (size alignment prevBlock : UInt64) (hl : Linked m es 0)
    {block : UInt64} (hp : block.toNat = firstOr es 0) (hfuel : es.length < fuel) :
    (findFit m size alignment fuel prevBlock block = some none ∧ firstFit es size alignment = none) ∨
    ∃ pre e post prev current, es = pre ++ e :: post ∧ firstFit es size alignment = some e ∧
      findFit m size alignment fuel prevBlock block = some (some (prev, current)) ∧
      prev.toNat = lastOr pre prevBlock.toNat ∧ current.toNat = e.addr := by
  induction es generalizing prevBlock block fuel with
  | nil =>
    obtain ⟨fuel, rfl⟩ := Nat.exists_eq_add_of_lt hfuel
    have hnull : block = 0 := UInt64.toNat_inj.mp hp
    left
    simp [findFit, firstFit, hnull]
  | cons e es ih =>
    obtain ⟨fuel, rfl⟩ : ∃ f, fuel = f + 1 := ⟨fuel - 1, by simp at hfuel; omega⟩
    obtain ⟨hsize, hnext, hl⟩ := hl
    have haddr : block.toNat = e.addr := hp
    obtain ⟨he, hrest⟩ := List.forall_mem_cons.mp hpos
    have hnull := ne_zero_of_toNat haddr he
    have hsizeOf : (sizeOf m block).toNat = e.size := by rw [sizeOf, haddr, hsize]
    have hnextOf : (nextOf m block).toNat = firstOr es 0 := by rw [nextOf, haddr, hnext]
    have htest : sizeOf m block ≥ (placement block size alignment).totalSize ↔
        need e size alignment ≤ e.size := by
      rw [ge_iff_le, UInt64.le_iff_toNat_le, hsizeOf, need, ← haddr, UInt64.ofNat_toNat]
    by_cases hfit : need e size alignment ≤ e.size
    · refine .inr ⟨[], e, es, prevBlock, block, rfl, ?_, ?_, rfl, haddr⟩
      · simp [firstFit, hfit]
      · simp [findFit, hnull, htest, hfit]
    · have hstep : findFit m size alignment (fuel + 1) prevBlock block =
          findFit m size alignment fuel block (nextOf m block) := by
        simp [findFit, hnull, htest, hfit]
      have hskip : firstFit (e :: es) size alignment = firstFit es size alignment := by
        simp [firstFit, hfit]
      rw [hstep, hskip]
      rcases ih hrest block hl hnextOf (by simpa using hfuel) with
        hnone | ⟨pre, f, post, prev, current, rfl, hfirst, hfound, hprev, hcurrent⟩
      · exact .inl hnone
      · refine .inr ⟨e :: pre, f, post, prev, current, rfl, hfirst, hfound, ?_, hcurrent⟩
        rw [hprev, haddr]
        rfl

/-- The insertion loop stops between the blocks below an address and the others. -/
theorem findPlace_spec (blockAddr prevBlock : UInt64) (hl : Linked m es 0)
    {block : UInt64} (hp : block.toNat = firstOr es 0) (hfuel : es.length < fuel) :
    ∃ prev current, findPlace m blockAddr fuel prevBlock block = some (prev, current) ∧
      prev.toNat = lastOr (es.takeWhile (fun e => decide (e.addr < blockAddr.toNat))) prevBlock.toNat ∧
      current.toNat = firstOr (es.dropWhile (fun e => decide (e.addr < blockAddr.toNat))) 0 := by
  induction es generalizing prevBlock block fuel with
  | nil =>
    obtain ⟨fuel, rfl⟩ := Nat.exists_eq_add_of_lt hfuel
    have hnull : block = 0 := UInt64.toNat_inj.mp hp
    exact ⟨prevBlock, block, by simp [findPlace, hnull], rfl, hp⟩
  | cons e es ih =>
    obtain ⟨fuel, rfl⟩ : ∃ f, fuel = f + 1 := ⟨fuel - 1, by simp at hfuel; omega⟩
    obtain ⟨_, hnext, hl⟩ := hl
    have haddr : block.toNat = e.addr := hp
    obtain ⟨he, hrest⟩ := List.forall_mem_cons.mp hpos
    have hnull := ne_zero_of_toNat haddr he
    have hnextOf : (nextOf m block).toNat = firstOr es 0 := by rw [nextOf, haddr, hnext]
    have hlt : block < blockAddr ↔ e.addr < blockAddr.toNat := by
      rw [UInt64.lt_iff_toNat_lt, haddr]
    by_cases hbelow : e.addr < blockAddr.toNat
    · obtain ⟨prev, current, hfound, hprev, hcurrent⟩ := ih hrest block hl hnextOf
        (by simpa using hfuel)
      refine ⟨prev, current, ?_, ?_, ?_⟩
      · rw [← hfound]
        simp [findPlace, hnull, hlt, hbelow]
      · rw [hprev, haddr]
        simp [hbelow, lastOr]
      · rw [hcurrent]
        simp [hbelow]
    · exact ⟨prevBlock, block, by simp [findPlace, hlt, hbelow], by simp [hbelow, lastOr],
        by simpa [hbelow, firstOr] using haddr⟩

/-- The list can be read from memory, whatever fuel is left over. -/
theorem readBlocks_eq (hl : Linked m es 0) {block : UInt64} (hp : block.toNat = firstOr es 0)
    (hfuel : es.length < fuel) : readBlocks m fuel block = es := by
  induction es generalizing block fuel with
  | nil =>
    obtain ⟨fuel, rfl⟩ := Nat.exists_eq_add_of_lt hfuel
    have hnull : block = 0 := UInt64.toNat_inj.mp hp
    simp [readBlocks, hnull]
  | cons e es ih =>
    obtain ⟨fuel, rfl⟩ : ∃ f, fuel = f + 1 := ⟨fuel - 1, by simp at hfuel; omega⟩
    obtain ⟨hsize, hnext, hl⟩ := hl
    have haddr : block.toNat = e.addr := hp
    obtain ⟨he, hrest⟩ := List.forall_mem_cons.mp hpos
    have hnull := ne_zero_of_toNat haddr he
    have hnextOf : (nextOf m block).toNat = firstOr es 0 := by rw [nextOf, haddr, hnext]
    rw [readBlocks, if_neg hnull, ih hrest hl hnextOf (by simpa using hfuel), sizeOf, haddr, hsize]

end Walk

/-- Writing a block's two fields. -/
theorem blockHeader_spec {block size next : UInt64} (haddr : block.toNat = e.addr)
    (hsize : size.toNat = e.size) (hm : setNext (setSize m block size) block next = m') :
    (load64 m' e.addr).toNat = e.size ∧ load64 m' (e.addr + 8) = next ∧
      ∀ i, ¬ (e.addr ≤ i ∧ i < e.addr + 16) → m' i = m i := by
  rw [setNext, setSize, haddr] at hm
  subst hm
  refine ⟨?_, load64_store64 .., fun i hi => ?_⟩
  · rw [load64_store64_disjoint (by omega), load64_store64, hsize]
  · rw [store64_frame (by omega), store64_frame (by omega)]

/-- Relinking the end of a first part of the list, or the head if there is none. -/
theorem link_spec (s : CFreeListAllocator) (hlo : 0 < lo) (hb : Blocks lo hi pre)
    (hl : Linked s.memory pre last) (hhead : s.freeList.toNat = firstOr pre last)
    {prevBlock : UInt64} (block : UInt64) (hprev : prevBlock.toNat = lastOr pre 0) :
    Linked (s.link prevBlock block).memory pre block.toNat ∧
      (s.link prevBlock block).freeList.toNat = firstOr pre block.toNat ∧
      (∀ i, (∀ e ∈ pre, ¬ (e.addr ≤ i ∧ i < e.addr + 16)) →
        (s.link prevBlock block).memory i = s.memory i) ∧
      (s.link prevBlock block).buffer = s.buffer ∧ (s.link prevBlock block).capacity = s.capacity ∧
      (s.link prevBlock block).tracked = s.tracked := by
  rcases List.eq_nil_or_concat pre with rfl | ⟨init, e, rfl⟩
  · have hnull : prevBlock = 0 := UInt64.toNat_inj.mp hprev
    simp [CFreeListAllocator.link, hnull, Linked, firstOr]
  · rw [List.concat_eq_append] at *
    rw [lastOr_concat] at hprev
    obtain ⟨hinit, hsize, hnext, _⟩ := linked_append.mp hl
    have he := hb.inside e (by simp)
    have hnull : prevBlock ≠ 0 := by
      rintro rfl
      have hz : (0 : UInt64).toNat = 0 := rfl
      omega
    have hlink : s.link prevBlock block = { s with memory := store64 s.memory (e.addr + 8) block } := by
      simp [CFreeListAllocator.link, hnull, setNext, hprev]
    have hframe : ∀ i, (i < e.addr + 8 ∨ e.addr + 16 ≤ i) →
        store64 s.memory (e.addr + 8) block i = s.memory i :=
      fun i hi => store64_frame (by omega)
    rw [hlink]
    refine ⟨linked_append.mpr ⟨linked_congr ?_ hinit, ?_, ?_, trivial⟩, ?_, ?_, rfl, rfl, rfl⟩
    · intro f hf i hlow hup
      have := (List.pairwise_append.mp hb.ordered).2.2 f hf e (by simp)
      have := hb.inside f (by simp [hf])
      simp only [Extent.stop] at this
      exact (hframe i (by simp only [Extent.stop] at *; omega)).symm
    · rw [load64_store64_disjoint (by omega)]
      exact hsize
    · rw [load64_store64]
      rfl
    · rw [firstOr_append] at hhead ⊢
      exact hhead
    · intro i hout
      have := hout e (by simp)
      exact hframe i (by omega)

theorem firstOr_coalesceFrom (a : Extent) (rest : List Extent) (last : Nat) :
    firstOr (coalesceFrom a rest) last = a.addr := by
  induction rest generalizing a with
  | nil => rfl
  | cons b rest ih =>
    simp only [coalesceFrom]
    split
    · exact ih _
    · rfl

theorem Blocks.merge {b : Extent} (hb : Blocks lo hi (a :: b :: rest)) (htouch : a.stop = b.addr) :
    Blocks lo hi (⟨a.addr, a.size + b.size⟩ :: rest) := by
  obtain ⟨ha, hbr⟩ := List.pairwise_cons.mp hb.ordered
  obtain ⟨hbr, hr⟩ := List.pairwise_cons.mp hbr
  have hina := hb.inside a (by simp)
  have hinb := hb.inside b (by simp)
  have hstop : (⟨a.addr, a.size + b.size⟩ : Extent).stop = b.stop := by
    simp only [Extent.stop] at htouch ⊢
    omega
  refine ⟨List.pairwise_cons.mpr ⟨fun e he => ?_, hr⟩, List.forall_mem_cons.mpr ⟨⟨hina.1, ?_, ?_⟩, ?_⟩⟩
  · rw [hstop]
    exact hbr e he
  · rw [hstop]
    exact hinb.2.1
  · simp only
    omega
  · exact fun e he => hb.inside e (by simp [he])

/-- The headers of later blocks stand clear of an earlier block's. -/
theorem Blocks.clear (hb : Blocks lo hi (a :: rest)) {i : Nat} (hlow : a.addr ≤ i)
    (hup : i < a.addr + 16) : ∀ e ∈ rest, ¬ (e.addr ≤ i ∧ i < e.addr + 16) := by
  intro e he
  have := (List.pairwise_cons.mp hb.ordered).1 e he
  have := hb.inside a (by simp)
  simp only [Extent.stop] at *
  omega

section Merge
variable {b : Extent} {block : UInt64}
variable (hlo : 0 < lo) (hhi : hi < 2 ^ 64) (hb : Blocks lo hi (a :: b :: rest))
variable (hl : Linked m (a :: b :: rest) 0) (hp : block.toNat = a.addr)
include hl hp

theorem nextOf_toNat : (nextOf m block).toNat = b.addr := by
  rw [nextOf, hp]
  exact hl.2.1

include hlo hb in
theorem both_nonnull : block ≠ 0 ∧ nextOf m block ≠ 0 := by
  have hina := (hb.inside a (by simp)).1
  have hinb := (hb.inside b (by simp)).1
  constructor
  · rintro rfl
    rw [UInt64.toNat_zero] at hp
    omega
  · intro he
    have hnext := nextOf_toNat hl hp
    rw [he, UInt64.toNat_zero] at hnext
    omega

include hhi hb in
/-- The test of the loop: the next block starts where this one stops. -/
theorem touches_iff : block + sizeOf m block = nextOf m block ↔ a.stop = b.addr := by
  have hina := (hb.inside a (by simp)).2.1
  have hsizeOf : (sizeOf m block).toNat = a.size := by rw [sizeOf, hp, hl.1]
  rw [← UInt64.toNat_inj, UInt64.toNat_add, hp, hsizeOf, nextOf_toNat hl hp]
  simp only [Extent.stop] at *
  omega

include hhi hb in
theorem mergeNext_spec : Linked (mergeNext m block) (⟨a.addr, a.size + b.size⟩ :: rest) 0 ∧
    ∀ i, ¬ (a.addr ≤ i ∧ i < a.addr + 16) → mergeNext m block i = m i := by
  obtain ⟨hsize, _, hbsize, hbnext, hrest⟩ := id hl
  have hab := (List.pairwise_cons.mp hb.ordered).1 b (by simp)
  have hina := hb.inside a (by simp)
  have hinb := hb.inside b (by simp)
  simp only [Extent.stop] at hab hina hinb
  have hnextOf := nextOf_toNat hl hp
  have hsum : (sizeOf m block + sizeOf m (nextOf m block)).toNat = a.size + b.size := by
    rw [UInt64.toNat_add, sizeOf, sizeOf, hp, hsize, hnextOf, hbsize]
    omega
  generalize hgrown : sizeOf m block + sizeOf m (nextOf m block) = grown at hsum
  have hsame : nextOf (setSize m block grown) block = nextOf m block := by
    rw [nextOf, nextOf, setSize, hp, load64_store64_disjoint (by omega)]
  have hafter : (nextOf (setSize m block grown) (nextOf m block)).toNat = firstOr rest 0 := by
    rw [nextOf, setSize, hnextOf, hp, load64_store64_disjoint (by omega)]
    exact hbnext
  have hmerged : setNext (setSize m block grown) block
      (nextOf (setSize m block grown) (nextOf m block)) = mergeNext m block := by
    simp only [mergeNext, hgrown, hsame]
  obtain ⟨hnewSize, hnewNext, hframe⟩ :=
    blockHeader_spec (e := ⟨a.addr, a.size + b.size⟩) hp hsum hmerged
  refine ⟨⟨hnewSize, by rw [hnewNext]; exact hafter, linked_congr (fun e he i hlow hup => ?_) hrest⟩,
    hframe⟩
  refine (hframe i fun hin => ?_).symm
  exact hb.clear hin.1 hin.2 e (by simp [he]) ⟨hlow, hup⟩

end Merge

/-- CoalesceFreeBlocks merges just what touches, rewriting only blocks' headers. -/
theorem coalesceFreeBlocks_spec (hlo : 0 < lo) (hhi : hi < 2 ^ 64) (hb : Blocks lo hi (a :: rest))
    (hl : Linked m (a :: rest) 0) {block : UInt64} (hp : block.toNat = a.addr)
    (hfuel : rest.length < fuel) :
    ∃ m', coalesceFreeBlocks m fuel block = some m' ∧ Linked m' (coalesceFrom a rest) 0 ∧
      ∀ i, (∀ e ∈ a :: rest, ¬ (e.addr ≤ i ∧ i < e.addr + 16)) → m' i = m i := by
  induction rest generalizing a m block fuel with
  | nil =>
    obtain ⟨fuel, rfl⟩ : ∃ f, fuel = f + 1 := ⟨fuel - 1, by simp at hfuel; omega⟩
    have hnext : nextOf m block = 0 := by
      apply UInt64.toNat_inj.mp
      rw [nextOf, hp]
      exact hl.2.1
    exact ⟨m, by simp [coalesceFreeBlocks, hnext], hl, fun _ _ => rfl⟩
  | cons b rest ih =>
    obtain ⟨fuel, rfl⟩ : ∃ f, fuel = f + 1 := ⟨fuel - 1, by simp at hfuel; omega⟩
    have hnonnull := both_nonnull hlo hb hl hp
    have htest := touches_iff hhi hb hl hp
    by_cases htouch : a.stop = b.addr
    · obtain ⟨hlinked, hframe⟩ := mergeNext_spec hhi hb hl hp
      obtain ⟨m', hrun, hdone, hout⟩ := ih (hb.merge htouch) hlinked hp (by simpa using hfuel)
      refine ⟨m', ?_, ?_, ?_⟩
      · rw [← hrun]
        simp [coalesceFreeBlocks, hnonnull, htest, htouch]
      · simpa [coalesceFrom, htouch] using hdone
      · intro i hi
        obtain ⟨ha, hi⟩ := List.forall_mem_cons.mp hi
        obtain ⟨_, hi⟩ := List.forall_mem_cons.mp hi
        rw [hout i (List.forall_mem_cons.mpr ⟨ha, hi⟩), hframe i ha]
    · obtain ⟨hsize, hnext, htail⟩ := id hl
      obtain ⟨m', hrun, hdone, hout⟩ := ih hb.tail htail (nextOf_toNat hl hp) (by simpa using hfuel)
      have hkept : ∀ i, a.addr ≤ i → i < a.addr + 16 → m' i = m i :=
        fun i hlow hup => hout i (hb.clear hlow hup)
      refine ⟨m', ?_, ?_, fun i hi => hout i (List.forall_mem_cons.mp hi).2⟩
      · rw [← hrun]
        simp [coalesceFreeBlocks, hnonnull, htest, htouch]
      · simp only [coalesceFrom, htouch, if_false]
        refine ⟨?_, ?_, hdone⟩
        · rw [load64_congr fun i hlow hup => hkept i (by omega) (by omega)]
          exact hsize
        · rw [load64_congr fun i hlow hup => hkept i (by omega) (by omega), firstOr_coalesceFrom]
          exact hnext

end TgeCore.Memory
