import TgeCore.Library.Extents
import TgeCore.Library.Tally
import TgeCore.Memory.GlobalOperators
import TgeCore.Memory.TrackerBooks

namespace TgeCore.Memory.GlobalOperators
open Library Library.ByteMemory Library.Extents

/-- A thread's current category, and what its open scopes found there, the innermost first. -/
structure CategoryContext where
  gCurrentCategory : CategoryId := Category.Global
  previousCategories : List CategoryId := []

namespace CategoryContext

def setCurrentCategory (context : CategoryContext) (category : CategoryId) : CategoryContext :=
  { context with gCurrentCategory := category }

/-- The constructor of CScopedCategory. -/
def enter (context : CategoryContext) (category : CategoryId) : CategoryContext :=
  ⟨category, context.gCurrentCategory :: context.previousCategories⟩

/-- Its destructor. -/
def leave (context : CategoryContext) : Option CategoryContext :=
  match context.previousCategories with
  | [] => none
  | previous :: rest => some ⟨previous, rest⟩

end CategoryContext

/-- A raw block that is out: what was asked for, the category that was current in the
thread that asked, what the operator that works on it has still to do, and whether the
tracker counts it. -/
structure Block where
  form : NewForm
  rawPtr : UInt64
  length : Nat
  size : UInt64
  category : CategoryId
  rest : List Event
  counted : Bool := false

namespace Block

def userPtr (b : Block) : UInt64 := b.rawPtr + b.form.headerSize

def extent (b : Block) : Extent := ⟨b.rawPtr.toNat, b.length⟩

/-- The bytes the tracker should have for it under the categories asked about. -/
def bytes (under : CategoryId → Bool) (b : Block) : Nat :=
  if b.counted && under b.category then b.size.toNat else 0

def count (category : CategoryId) (b : Block) : Nat :=
  if b.counted && b.category == category then 1 else 0

end Block

/-- The memory and the tracker that all threads share, each thread's categories, and the
raw blocks that are out. -/
structure Process where
  memory : Memory
  tracker : Tracker := {}
  contexts : Nat → CategoryContext := fun _ => {}
  blocks : List Block := []

inductive ProcessOp where
  | setCurrentCategory (thread : Nat) (category : CategoryId)
  | enterScope (thread : Nat) (category : CategoryId)
  | leaveScope (thread : Nat)
  | registerCategory (name : String)
  | new (thread : Nat) (form : NewForm) (variant : Nat) (size rawPtr : UInt64) (length : Nat)
  | delete (thread i variant : Nat) (sized : UInt64)
  | goOn (i : Nat)
  | store (address : Nat) (byte : UInt8)

/-- What rpmalloc promises of a block: it serves the request, and no part of it is out. -/
def Fresh (blocks : List Block) (form : NewForm) (size rawPtr : UInt64) (length : Nat) : Prop :=
  (rawPtr ≠ 0 ∧ (form.headerSize + size).toNat ≤ length ∧ rawPtr.toNat + length < 2 ^ 64 ∧
    form.alignment.toNat ∣ rawPtr.toNat) ∧
  ∀ b ∈ blocks, rawPtr.toNat + length ≤ b.extent.addr ∨ b.extent.stop ≤ rawPtr.toNat

instance (blocks : List Block) (form : NewForm) (size rawPtr : UInt64) (length : Nat) :
    Decidable (Fresh blocks form size rawPtr length) :=
  inferInstanceAs (Decidable ((_ ∧ _ ∧ _ ∧ _) ∧ ∀ b ∈ blocks, _))

namespace Process

def world (p : Process) (thread : Nat) : World := ⟨(p.contexts thread).gCurrentCategory, p.memory⟩

def setContext (p : Process) (thread : Nat) (context : CategoryContext) : Process :=
  { p with contexts := Function.update p.contexts thread context }

/-- The next call of the operator that works on a block. It may free that block and no other. -/
def perform (p : Process) (i : Nat) (b : Block) : Event → Option Process
  | .trackAllocation category size =>
    (p.tracker.trackAllocation category size).map fun (_, tracker) =>
      { p with tracker, blocks := p.blocks.set i { b with counted := true } }
  | .trackDeallocation category size =>
    (p.tracker.trackDeallocation category size).map fun (_, tracker) =>
      { p with tracker, blocks := p.blocks.set i { b with counted := false } }
  | .rpfree ptr => if ptr = b.rawPtr then some { p with blocks := p.blocks.eraseIdx i } else none
  | .rpmalloc _ | .rpalignedAlloc .. | .notifyAllocation .. | .notifyDeallocation _ =>
    some { p with blocks := p.blocks.set i b }

/-- One thing a thread does. The operators of several threads go on in any order, each
call of one being a step. The program writes no byte between the start of a raw block and
the user region in it. -/
def step (p : Process) : ProcessOp → Option (Process × Unit)
  | .setCurrentCategory thread category =>
    some (p.setContext thread ((p.contexts thread).setCurrentCategory category), ())
  | .enterScope thread category => some (p.setContext thread ((p.contexts thread).enter category), ())
  | .leaveScope thread => (p.contexts thread).leave.map fun context => (p.setContext thread context, ())
  | .registerCategory name =>
    (p.tracker.registerCategory name).map fun (_, tracker) => ({ p with tracker }, ())
  | .new thread form variant size rawPtr length =>
    if IsPowerOfTwo form.alignment ∧ (rawPtr = 0 ∨ Fresh p.blocks form size rawPtr length) then
      (form.news size rawPtr (p.world thread))[variant]?.join.map fun made =>
        if rawPtr = 0 then (p, ())
        else
          -- the raw block was asked for with the first of the calls
          let b : Block :=
            { form, rawPtr, length, size, category := (p.contexts thread).gCurrentCategory
              rest := made.events.tail }
          ({ p with memory := made.world.memory, blocks := b :: p.blocks }, ())
    else none
  | .delete thread i variant sized =>
    p.blocks[i]?.bind fun b =>
      if b.rest = [] then
        (b.form.deletes b.userPtr sized (p.world thread))[variant]?.map fun events =>
          ({ p with blocks := p.blocks.set i { b with rest := events } }, ())
      else none
  | .goOn i =>
    p.blocks[i]?.bind fun b =>
      match b.rest with
      | [] => none
      | event :: rest => (p.perform i { b with rest } event).map fun p => (p, ())
  | .store address byte =>
    if ∀ b ∈ p.blocks, address < b.rawPtr.toNat ∨ b.userPtr.toNat ≤ address then
      some ({ p with memory := Function.update p.memory address byte }, ())
    else none

end Process

def process : Machine Process ProcessOp Unit := ⟨Process.step⟩

@[simp] theorem process_step (p : Process) (op : ProcessOp) : process.step p op = p.step op := rfl

/-- Header and size of a request can be counted in 64 bits. -/
def ProcessOp.Fits (_ : Process) : ProcessOp → Prop
  | .new _ form _ size _ _ => form.headerSize.toNat + size.toNat < 2 ^ 64
  | _ => True

instance (p : Process) (op : ProcessOp) : Decidable (op.Fits p) := by
  cases op <;> unfold ProcessOp.Fits <;> infer_instance

/-- The tracker has, for every category, what the blocks that are counted were asked for
under it, and their number as far as 32 bits go; in all it has what they were asked for
under the registered categories. A block nobody works on is given back by each of its
operators delete, and no operator gets stuck under a category of the table. -/
structure Process.Attributed (p : Process) : Prop where
  usage : ∀ (c : CategoryId) (h : c.toNat < MaxCategories),
    (p.tracker.categoryStats[c.toNat]).getCurrentUsage.toNat = tally (Block.bytes (· == c)) p.blocks
  number : ∀ (c : CategoryId) (h : c.toNat < MaxCategories),
    (p.tracker.categoryStats[c.toNat]).allocationCount - (p.tracker.categoryStats[c.toNat]).deallocationCount =
      UInt32.ofNat (tally (Block.count c) p.blocks)
  total : p.tracker.getCurrentUsage.toNat =
    tally (Block.bytes fun c => decide (c.toNat < p.tracker.numCategories)) p.blocks
  given : ∀ b ∈ p.blocks, b.rest = [] → b.counted = true ∧
    ∀ thread sized, ∀ events ∈ b.form.deletes b.userPtr sized (p.world thread),
      events = [.notifyDeallocation b.userPtr, .trackDeallocation b.category b.size, .rpfree b.rawPtr]
  goesOn : ∀ i b, p.blocks[i]? = some b → b.rest ≠ [] → b.category.toNat < MaxCategories →
    (p.step (.goOn i)).isSome = true

/-- Where an operator stands in its work on a block. -/
inductive Block.Stage (b : Block) : List Event → Bool → Prop where
  | made : b.Stage [.trackAllocation b.category b.size, .notifyAllocation b.userPtr b.size] false
  | tracked : b.Stage [.notifyAllocation b.userPtr b.size] true
  | given : b.Stage [] true
  | takenBack : b.Stage [.notifyDeallocation b.userPtr, .trackDeallocation b.category b.size,
      .rpfree b.rawPtr] true
  | notified : b.Stage [.trackDeallocation b.category b.size, .rpfree b.rawPtr] true
  | untracked : b.Stage [.rpfree b.rawPtr] false

/-- A block that rpmalloc served, with its header in memory. -/
structure Block.Sound (memory : Memory) (b : Block) : Prop where
  fits : b.form.headerSize.toNat + b.size.toNat < 2 ^ 64
  sixteen : 16 ≤ b.form.headerSize.toNat
  served : b.form.headerSize.toNat + b.size.toNat ≤ b.length
  room : b.rawPtr.toNat + b.length < 2 ^ 64
  category : categoryField memory b.rawPtr = b.category
  size : sizeField memory b.rawPtr = b.size
  stage : b.Stage b.rest b.counted

/-- The numbers of a category, as far as they are counted modulo a power of two. -/
def Counts (stats : SStats) (bytes count : Nat) : Prop :=
  stats.getCurrentUsage = UInt64.ofNat bytes ∧
    stats.allocationCount - stats.deallocationCount = UInt32.ofNat count

structure Process.Inv (p : Process) : Prop where
  sound : ∀ b ∈ p.blocks, b.Sound p.memory
  apart : (p.blocks.map Block.extent).Pairwise fun a b => a.stop ≤ b.addr ∨ b.stop ≤ a.addr
  counts : ∀ (c : CategoryId) (h : c.toNat < MaxCategories), Counts (p.tracker.categoryStats[c.toNat])
    (tally (Block.bytes (· == c)) p.blocks) (tally (Block.count c) p.blocks)

section Counts
variable {stats : SStats} {bytes count : Nat} {size : UInt64}

theorem Counts.grown (h : Counts stats bytes count) :
    Counts (stats.grown size) (bytes + size.toNat) (count + 1) := by
  obtain ⟨husage, hnumber⟩ := h
  have hsame : (stats.grown size).allocated = stats.allocated + size ∧
      (stats.grown size).deallocated = stats.deallocated ∧
      (stats.grown size).allocationCount = stats.allocationCount + 1 ∧
      (stats.grown size).deallocationCount = stats.deallocationCount := by
    unfold SStats.grown
    dsimp only
    split <;> exact ⟨rfl, rfl, rfl, rfl⟩
  obtain ⟨hallocated, hdeallocated, hmade, hgone⟩ := hsame
  constructor
  · rw [SStats.getCurrentUsage] at husage ⊢
    rw [hallocated, hdeallocated, UInt64.ofNat_add, ← husage, UInt64.ofNat_toNat]
    grind
  · rw [hmade, hgone, UInt32.ofNat_add, ← hnumber]
    grind

theorem Counts.shrunk (h : Counts stats (bytes + size.toNat) (count + 1)) :
    Counts (stats.shrunk size) bytes count := by
  obtain ⟨husage, hnumber⟩ := h
  rw [SStats.getCurrentUsage, UInt64.ofNat_add, UInt64.ofNat_toNat] at husage
  rw [UInt32.ofNat_add] at hnumber
  constructor
  · change stats.allocated - (stats.deallocated + size) = UInt64.ofNat bytes
    grind
  · change stats.allocationCount - (stats.deallocationCount + 1) = UInt32.ofNat count
    grind

end Counts

section Sound
variable {m m' : Memory} {b : Block} {p p' : Process} {i : Nat}

theorem Block.Sound.user (h : b.Sound m) : b.userPtr.toNat = b.rawPtr.toNat + b.form.headerSize.toNat := by
  have := h.served
  have := h.room
  rw [Block.userPtr, UInt64.toNat_add]
  exact Nat.mod_eq_of_lt (by omega)

/-- All of it stays while the header does. -/
theorem Block.Sound.congr (h : b.Sound m)
    (hm : ∀ i, b.rawPtr.toNat ≤ i → i < b.rawPtr.toNat + 16 → m i = m' i) : b.Sound m' := by
  have := h.served
  have := h.sixteen
  have := h.room
  obtain ⟨hcategory, hsize⟩ := header_congr (by omega) hm
  exact ⟨h.fits, h.sixteen, h.served, h.room, hcategory ▸ h.category, hsize ▸ h.size, h.stage⟩

/-- The header of a block that lies apart is written elsewhere. -/
theorem Block.Sound.setHeader (h : b.Sound m) {rawPtr size : UInt64} {category : CategoryId} {length : Nat}
    (hroom : rawPtr.toNat + 16 ≤ 2 ^ 64) (hlength : 16 ≤ length)
    (hapart : rawPtr.toNat + length ≤ b.extent.addr ∨ b.extent.stop ≤ rawPtr.toNat) :
    b.Sound (setHeader m rawPtr category size) := by
  refine h.congr fun j hlow hhigh => ?_
  have := h.served
  have := h.sixteen
  have hfield := sizeField_address hroom
  simp only [Block.extent, Extent.stop] at hapart
  refine ((store64_frame ?_).trans (store_frame ?_)).symm
  · rw [hfield]
    omega
  · omega

/-- A block nobody works on is counted. -/
theorem Block.Sound.counted_of_idle (h : b.Sound m) (hidle : b.rest = []) : b.counted = true := by
  have hstage := h.stage
  rw [hidle] at hstage
  generalize b.counted = counted at hstage ⊢
  cases hstage
  rfl

/-- Each operator delete of its form does with it what has to be done. -/
theorem Block.Sound.deletes (h : b.Sound m) {sized : UInt64} {category : CategoryId} :
    ∀ events ∈ b.form.deletes b.userPtr sized ⟨category, m⟩,
      events = [.notifyDeallocation b.userPtr, .trackDeallocation b.category b.size, .rpfree b.rawPtr] := by
  intro events hevents
  have hback : b.userPtr - b.form.headerSize = b.rawPtr := UInt64.add_sub_cancel ..
  have hnonnull : b.userPtr ≠ 0 := by
    intro hzero
    have huser := h.user
    have := h.sixteen
    rw [hzero, UInt64.toNat_zero] at huser
    omega
  rw [deletes_eq hnonnull events hevents, hback, h.category, h.size]

theorem total_extents (blocks : List Block) :
    total (blocks.map Block.extent) = tally Block.length blocks := by
  induction blocks with
  | nil => rfl
  | cons b blocks ih => rw [List.map_cons, total_cons, tally_cons, ih, Block.extent]

theorem Block.Sound.bytes_le (h : b.Sound m) (under : CategoryId → Bool) : b.bytes under ≤ b.length := by
  have := h.served
  simp only [Block.bytes]
  split
  · omega
  · exact Nat.zero_le _

/-- Blocks that lie apart have no more bytes asked for in them than there are addresses. -/
theorem Process.Inv.bytes_lt (h : p.Inv) (under : CategoryId → Bool) :
    tally (Block.bytes under) p.blocks < 2 ^ 64 := by
  have hapart : (p.blocks.map Block.extent).Pairwise Apart := by
    refine h.apart.imp ?_
    rintro a b hab x ⟨hlow, hhigh⟩ ⟨hlow', hhigh'⟩
    omega
  have hroom : ∀ e ∈ p.blocks.map Block.extent, 0 ≤ e.addr ∧ e.stop ≤ 2 ^ 64 - 1 := by
    intro e he
    obtain ⟨b, hb, rfl⟩ := List.mem_map.mp he
    have := (h.sound b hb).room
    simp only [Block.extent, Extent.stop]
    omega
  have hasked : tally (Block.bytes under) p.blocks ≤ tally Block.length p.blocks :=
    tally_le fun b hb => (h.sound b hb).bytes_le under
  have htotal := total_le_of_apart hapart hroom
  rw [total_extents] at htotal
  omega

/-- The work on a block goes on, and the tracker's numbers with it. -/
theorem Process.Inv.replace (h : p.Inv) (hb : p.blocks[i]? = some b) {rest : List Event} {counted : Bool}
    (hstage : b.Stage rest counted) {tracker : Tracker}
    (hcounts : ∀ (c : CategoryId) (h : c.toNat < MaxCategories), Counts (tracker.categoryStats[c.toNat])
      (tally (Block.bytes (· == c)) (p.blocks.set i { b with rest, counted }))
      (tally (Block.count c) (p.blocks.set i { b with rest, counted }))) :
    Process.Inv { p with tracker, blocks := p.blocks.set i { b with rest, counted } } := by
  refine ⟨fun a ha => ?_, ?_, hcounts⟩
  · rcases List.mem_or_eq_of_mem_set ha with ha | rfl
    · exact h.sound a ha
    · have hs := h.sound b (List.mem_of_getElem? hb)
      refine ⟨hs.fits, hs.sixteen, hs.served, hs.room, hs.category, hs.size, ?_⟩
      cases hstage with
      | made => exact .made
      | tracked => exact .tracked
      | given => exact .given
      | takenBack => exact .takenBack
      | notified => exact .notified
      | untracked => exact .untracked
  · obtain ⟨hi, rfl⟩ := List.getElem?_eq_some_iff.mp hb
    have hsame : (p.blocks.set i { p.blocks[i] with rest, counted }).map Block.extent =
        p.blocks.map Block.extent := by
      have hlength : i < (p.blocks.map Block.extent).length := by rwa [List.length_map]
      have hself := List.set_getElem_self hlength
      rw [List.getElem_map] at hself
      rw [List.map_set]
      exact hself
    simp only [hsame]
    exact h.apart

/-- A call that the tracker is not told of leaves its numbers alone. -/
theorem Process.Inv.notify (h : p.Inv) (hb : p.blocks[i]? = some b) {rest : List Event}
    (hstage : b.Stage rest b.counted) : Process.Inv { p with blocks := p.blocks.set i { b with rest } } := by
  refine h.replace hb hstage fun c hc => ?_
  have hbytes := tally_set (f := Block.bytes (· == c)) (b := { b with rest }) hb
  have hcount := tally_set (f := Block.count c) (b := { b with rest }) hb
  rw [Nat.add_right_cancel hbytes, Nat.add_right_cancel hcount]
  exact h.counts c hc

/-- The tracker is told of a block it does not count. -/
theorem Process.Inv.track (h : p.Inv) (hb : p.blocks[i]? = some b) (hcounted : b.counted = false)
    {rest : List Event} (hstage : b.Stage rest true) {u : Unit} {tracker : Tracker}
    (ht : p.tracker.trackAllocation b.category b.size = some (u, tracker)) :
    Process.Inv { p with tracker, blocks := p.blocks.set i { b with rest, counted := true } } := by
  refine h.replace hb hstage fun c hc => ?_
  have hbytes := tally_set (f := Block.bytes (· == c)) (b := { b with rest, counted := true }) hb
  have hcount := tally_set (f := Block.count c) (b := { b with rest, counted := true }) hb
  have hold := h.counts c hc
  simp only [Block.bytes, Block.count, hcounted, Bool.true_and, Bool.false_and, Bool.false_eq_true, if_false,
    Nat.add_zero, beq_iff_eq] at hbytes hcount
  rw [trackAllocation_stats ht c hc, hbytes, hcount]
  by_cases hsame : c = b.category
  · subst hsame
    simp only [if_true]
    exact hold.grown
  · simp only [if_neg hsame, if_neg (Ne.symm hsame), Nat.add_zero]
    exact hold

/-- And that a block it counts is given back. -/
theorem Process.Inv.untrack (h : p.Inv) (hb : p.blocks[i]? = some b) (hcounted : b.counted = true)
    {rest : List Event} (hstage : b.Stage rest false) {u : Unit} {tracker : Tracker}
    (ht : p.tracker.trackDeallocation b.category b.size = some (u, tracker)) :
    Process.Inv { p with tracker, blocks := p.blocks.set i { b with rest, counted := false } } := by
  refine h.replace hb hstage fun c hc => ?_
  have hbytes := tally_set (f := Block.bytes (· == c)) (b := { b with rest, counted := false }) hb
  have hcount := tally_set (f := Block.count c) (b := { b with rest, counted := false }) hb
  have hold := h.counts c hc
  simp only [Block.bytes, Block.count, hcounted, Bool.true_and, Bool.false_and, Bool.false_eq_true, if_false,
    Nat.add_zero, beq_iff_eq] at hbytes hcount
  rw [trackDeallocation_stats ht c hc]
  by_cases hsame : c = b.category
  · subst hsame
    simp only [if_true] at hbytes hcount ⊢
    rw [← hbytes, ← hcount] at hold
    exact hold.shrunk
  · simp only [if_neg (Ne.symm hsame), Nat.add_zero] at hbytes hcount
    simp only [if_neg hsame, hbytes, hcount]
    exact hold

/-- A block the tracker does not count any more is freed. -/
theorem Process.Inv.free (h : p.Inv) (hb : p.blocks[i]? = some b) (hcounted : b.counted = false) :
    Process.Inv { p with blocks := p.blocks.eraseIdx i } := by
  refine ⟨fun a ha => h.sound a (List.mem_of_mem_eraseIdx ha), ?_, fun c hc => ?_⟩
  · exact h.apart.sublist ((List.eraseIdx_sublist ..).map _)
  · have hbytes := tally_eraseIdx (f := Block.bytes (· == c)) hb
    have hcount := tally_eraseIdx (f := Block.count c) hb
    simp only [Block.bytes, Block.count, hcounted, Bool.false_and, Bool.false_eq_true, if_false,
      Nat.add_zero] at hbytes hcount
    rw [hbytes, hcount]
    exact h.counts c hc

/-- What an operator does next with a block, by how far it is. -/
theorem Process.Inv.goOn (h : p.Inv) {u : Unit} (hst : p.step (.goOn i) = some (p', u)) : p'.Inv := by
  obtain ⟨b, hb, hst⟩ := Option.bind_eq_some_iff.mp hst
  have hstage := (h.sound b (List.mem_of_getElem? hb)).stage
  generalize hrest : b.rest = rest at hstage hst
  generalize hcounted : b.counted = counted at hstage
  cases hstage with
  | made =>
    simp only [perform, Option.map_map, Option.map_eq_some_iff] at hst
    obtain ⟨⟨_, tracker⟩, ht, heq⟩ := hst
    cases heq
    exact h.track hb hcounted .tracked ht
  | tracked =>
    cases hst
    exact h.notify hb (hcounted ▸ .given)
  | given => cases hst
  | takenBack =>
    cases hst
    exact h.notify hb (hcounted ▸ .notified)
  | notified =>
    simp only [perform, Option.map_map, Option.map_eq_some_iff] at hst
    obtain ⟨⟨_, tracker⟩, ht, heq⟩ := hst
    cases heq
    exact h.untrack hb hcounted .untracked ht
  | untracked =>
    simp only [perform, if_pos] at hst
    cases hst
    exact h.free hb hcounted

theorem Process.Inv.delete (h : p.Inv) {thread variant : Nat} {sized : UInt64} {u : Unit}
    (hst : p.step (.delete thread i variant sized) = some (p', u)) : p'.Inv := by
  obtain ⟨b, hb, hst⟩ := Option.bind_eq_some_iff.mp hst
  have hs := h.sound b (List.mem_of_getElem? hb)
  split at hst
  · rename_i hidle
    obtain ⟨events, hevents, heq⟩ := Option.map_eq_some_iff.mp hst
    cases heq
    rw [hs.deletes events (List.mem_of_getElem? hevents)]
    refine h.notify hb ?_
    rw [hs.counted_of_idle hidle]
    exact .takenBack
  · cases hst

/-- A block that is new has its header written, which is in no other block. -/
theorem Process.Inv.new (h : p.Inv) {thread variant length : Nat} {form : NewForm} {size rawPtr : UInt64} {u : Unit}
    (hfits : form.headerSize.toNat + size.toNat < 2 ^ 64)
    (hst : p.step (.new thread form variant size rawPtr length) = some (p', u)) : p'.Inv := by
  simp only [step] at hst
  split at hst
  · rename_i hasked
    obtain ⟨hp, hblock⟩ := hasked
    obtain ⟨made, hmade, heq⟩ := Option.map_eq_some_iff.mp hst
    by_cases hnull : rawPtr = 0
    · rw [if_pos hnull] at heq
      cases heq
      exact h
    · rw [if_neg hnull] at heq
      cases heq
      obtain ⟨⟨_, hserved, hroom, _⟩, hfresh⟩ := hblock.resolve_left hnull
      obtain ⟨_, hsixteen, _⟩ := headerSize_spec hp
      rw [UInt64.toNat_add, Nat.mod_eq_of_lt hfits] at hserved
      have hheader : rawPtr.toNat + 16 ≤ 2 ^ 64 := by omega
      have hresult : some made = some (GlobalOperators.track (p.world thread) (form.request size) rawPtr
          (rawPtr + form.headerSize) size) := by
        rw [Option.join_eq_some_iff] at hmade
        exact news_eq hnull _ (List.mem_of_getElem? hmade)
      cases hresult
      refine ⟨fun b hb => ?_, ?_, fun c hc => ?_⟩
      · rcases List.mem_cons.mp hb with rfl | hb
        · exact ⟨hfits, hsixteen, hserved, hroom, categoryField_setHeader hheader .., sizeField_setHeader .., .made⟩
        · exact (h.sound b hb).setHeader hheader (by omega) (hfresh b hb)
      · rw [List.map_cons, List.pairwise_cons]
        refine ⟨fun e he => ?_, h.apart⟩
        obtain ⟨b, hb, rfl⟩ := List.mem_map.mp he
        exact hfresh b hb
      · simp only [tally_cons, Block.bytes, Block.count, Bool.false_and, Bool.false_eq_true, if_false, Nat.zero_add]
        exact h.counts c hc
  · cases hst

theorem Process.Inv.store (h : p.Inv) {address : Nat} {byte : UInt8} {u : Unit}
    (hst : p.step (.store address byte) = some (p', u)) : p'.Inv := by
  simp only [step] at hst
  split at hst
  · rename_i hout
    cases hst
    refine ⟨fun b hb => ?_, h.apart, h.counts⟩
    have hs := h.sound b hb
    refine hs.congr fun j hlow hhigh => ?_
    have := hs.sixteen
    have hside := hout b hb
    rw [hs.user] at hside
    have hne : j ≠ address := by omega
    exact (Function.update_of_ne hne ..).symm
  · cases hst

theorem Process.Inv.step (h : p.Inv) {op : ProcessOp} {u : Unit} (hfits : op.Fits p)
    (hst : p.step op = some (p', u)) : p'.Inv := by
  cases op with
  | setCurrentCategory thread category | enterScope thread category =>
    cases hst
    exact ⟨h.sound, h.apart, h.counts⟩
  | leaveScope thread =>
    obtain ⟨context, _, heq⟩ := Option.map_eq_some_iff.mp hst
    cases heq
    exact ⟨h.sound, h.apart, h.counts⟩
  | registerCategory name =>
    obtain ⟨⟨_, tracker⟩, ht, heq⟩ := Option.map_eq_some_iff.mp hst
    cases heq
    unfold Tracker.registerCategory at ht
    split at ht
    · cases ht
      exact ⟨h.sound, h.apart, h.counts⟩
    · cases ht
  | new thread form variant size rawPtr length => exact h.new hfits hst
  | delete thread i variant sized => exact h.delete hst
  | goOn i => exact h.goOn hst
  | store address byte => exact h.store hst

/-- The bytes under one category more are those under that category and those from before. -/
theorem Block.bytes_succ {n : Nat} {c : CategoryId} (hc : c.toNat = n) (b : Block) :
    b.bytes (fun c => decide (c.toNat < n + 1)) = b.bytes (fun c => decide (c.toNat < n)) + b.bytes (· == c) := by
  have hiff : (b.category == c) = decide (b.category.toNat = n) := by
    rw [Bool.eq_iff_iff, beq_iff_eq, decide_eq_true_iff, ← UInt16.toNat_inj, hc]
  simp only [Block.bytes, hiff]
  cases b.counted with
  | false => rfl
  | true =>
    simp only [Bool.true_and, decide_eq_true_iff]
    split <;> split <;> split <;> omega

/-- The numbers of the first categories sum up to what the blocks under them say. -/
theorem Process.Inv.total (h : p.Inv) {n : Nat} (hn : n ≤ MaxCategories) :
    (p.tracker.categoryStats.toList.take n).foldl (fun total stats => total + stats.getCurrentUsage) 0 =
      UInt64.ofNat (tally (Block.bytes fun c => decide (c.toNat < n)) p.blocks) := by
  induction n with
  | zero =>
    have hnone : tally (Block.bytes fun c => decide (c.toNat < 0)) p.blocks = 0 :=
      tally_eq_zero.mpr fun b _ => by simp [Block.bytes]
    rw [hnone]
    rfl
  | succ n ih =>
    have hlt : n < MaxCategories := hn
    have hlength : n < p.tracker.categoryStats.toList.length := by simpa using hlt
    have hsmall : MaxCategories < UInt16.size := by decide
    have hc : (UInt16.ofNat n).toNat = n := UInt16.toNat_ofNat_of_lt' (by omega)
    have hcounts := (h.counts (UInt16.ofNat n) (by rwa [hc])).1
    simp only [hc] at hcounts
    rw [List.take_succ_eq_append_getElem hlength, List.foldl_append, ih (Nat.le_of_lt hlt),
      tally_eq_add (Block.bytes_succ hc), UInt64.ofNat_add, ← hcounts]
    rfl

/-- A block with work to do gets its next call done, as long as its category has numbers. -/
theorem Process.Inv.goesOn (h : p.Inv) (hb : p.blocks[i]? = some b) (hrest : b.rest ≠ [])
    (hc : b.category.toNat < MaxCategories) : (p.step (.goOn i)).isSome = true := by
  have hstage := (h.sound b (List.mem_of_getElem? hb)).stage
  simp only [Process.step, hb, Option.bind_some]
  generalize b.rest = rest at hstage hrest
  generalize b.counted = counted at hstage
  cases hstage with
  | given => exact absurd rfl hrest
  | tracked | takenBack => rfl
  | made => simp [perform, Tracker.trackAllocation, hc]
  | notified => simp [perform, Tracker.trackDeallocation, hc]
  | untracked => simp [perform]

theorem Process.Inv.attributed (h : p.Inv) : p.Attributed := by
  refine ⟨fun c hc => ?_, fun c hc => (h.counts c hc).2, ?_, fun b hb hidle => ?_, fun i b hb => h.goesOn hb⟩
  · rw [(h.counts c hc).1]
    exact UInt64.toNat_ofNat_of_lt' (h.bytes_lt _)
  · rw [Tracker.getCurrentUsage, Tracker.total, h.total p.tracker.bounded]
    exact UInt64.toNat_ofNat_of_lt' (h.bytes_lt _)
  · have hs := h.sound b hb
    exact ⟨hs.counted_of_idle hidle, fun thread sized => hs.deletes⟩

/-- Whatever the threads allocate, free and write, under whatever categories and in whatever
order, the tracker has under each category what is out. -/
theorem process_attributed {memory : Memory} {ops : List ProcessOp} {os : List Unit}
    (hr : process.run ⟨memory, {}, fun _ => {}, []⟩ ops = some (p, os))
    (hfits : process.Along ProcessOp.Fits ⟨memory, {}, fun _ => {}, []⟩ ops) : p.Attributed := by
  have hstart : Process.Inv ⟨memory, {}, fun _ => {}, []⟩ := by
    refine ⟨fun b hb => absurd hb List.not_mem_nil, List.Pairwise.nil, fun c hc => ?_⟩
    simp only [Vector.getElem_replicate]
    exact ⟨(by decide : ({} : SStats).getCurrentUsage = 0), (by decide : (0 : UInt32) - 0 = 0)⟩
  exact (hfits.keeps Process.Inv (fun s op t o hs hgood hst => hs.step hgood hst) hstart hr).attributed

/-- An object that one thread makes in a scope is deleted by another, outside of it. -/
theorem process_attributed_threads : ∃ p os,
    process.run ⟨fun _ => 0, {}, fun _ => {}, []⟩
      [.enterScope 0 1, .new 0 .plain 0 100 4096 128, .leaveScope 0, .new 1 (.aligned 64) 1 200 8192 512,
        .goOn 1, .goOn 0, .goOn 0, .goOn 1, .store 4112 7, .delete 1 1 2 100, .goOn 1, .goOn 1, .goOn 1] =
      some (p, os) ∧ p.Attributed := by
  have hsome : (process.run ⟨fun _ => 0, {}, fun _ => {}, []⟩
      [.enterScope 0 1, .new 0 .plain 0 100 4096 128, .leaveScope 0, .new 1 (.aligned 64) 1 200 8192 512,
        .goOn 1, .goOn 0, .goOn 0, .goOn 1, .store 4112 7, .delete 1 1 2 100, .goOn 1, .goOn 1,
        .goOn 1]).isSome = true := by decide +kernel
  obtain ⟨⟨p, os⟩, hr⟩ := Option.isSome_iff_exists.mp hsome
  exact ⟨p, os, hr, process_attributed hr (by decide +kernel)⟩

end Sound

end TgeCore.Memory.GlobalOperators
