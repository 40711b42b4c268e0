import TgeCore.Memory.Allocation
import TgeCore.Memory.Tracking
import Mathlib.Algebra.Group.Nat.Defs

namespace TgeCore.Memory.GlobalOperators
open Library.ByteMemory

/-- What the operators call, in the order of the calls. -/
inductive Event where
  | rpmalloc (size : UInt64)
  | rpalignedAlloc (alignment size : UInt64)
  | trackAllocation (category : CategoryId) (size : UInt64)
  | notifyAllocation (ptr size : UInt64)
  | notifyDeallocation (ptr : UInt64)
  | trackDeallocation (category : CategoryId) (size : UInt64)
  | rpfree (ptr : UInt64)
deriving DecidableEq

/-- What the operators read: the thread's current category, and memory. -/
structure World where
  currentCategory : CategoryId := Category.Global
  memory : Memory

/-- What operator new leaves behind, with the pointer it returns. -/
structure Made where
  userPtr : UInt64
  world : World
  events : List Event

/-- sizeof(SAllocationHeader): a category, and the size 8 bytes behind it. -/
def sizeofHeader : UInt64 := 16

def categoryField (m : Memory) (header : UInt64) : CategoryId := UInt16.ofNat (load m header.toNat 2)

def sizeField (m : Memory) (header : UInt64) : UInt64 := load64 m (header + 8).toNat

def setHeader (m : Memory) (header : UInt64) (category : CategoryId) (size : UInt64) : Memory :=
  store64 (store m header.toNat 2 category.toNat) (header + 8).toNat size

def getHeader (userPtr : UInt64) : UInt64 := userPtr - sizeofHeader

def getUserPtr (rawPtr : UInt64) : UInt64 := rawPtr + sizeofHeader

def getAlignedHeaderSize (alignment : UInt64) : UInt64 :=
  (sizeofHeader + alignment - 1) &&& ~~~(alignment - 1)

/-- The header is written and the allocation tracked. -/
def track (w : World) (request : Event) (rawPtr userPtr size : UInt64) : Made where
  userPtr
  world := { w with memory := setHeader w.memory rawPtr w.currentCategory size }
  events := [request, .trackAllocation w.currentCategory size, .notifyAllocation userPtr size]

/-- The nothrow forms return null where there is no raw block. -/
def untracked (w : World) (request : Event) (size : UInt64) : Made :=
  ⟨0, w, [request, .notifyAllocation 0 size]⟩

/-- Given what rpmalloc returned, here and below. A header written at the null
pointer is undefined behaviour. -/
def operatorNew (size rawPtr : UInt64) (w : World) : Option Made :=
  let totalSize := sizeofHeader + size
  if rawPtr ≠ 0 then some (track w (.rpmalloc totalSize) rawPtr (getUserPtr rawPtr) size) else none

def operatorDelete (ptr : UInt64) (w : World) : List Event :=
  if ptr ≠ 0 then
    let header := getHeader ptr
    [.notifyDeallocation ptr, .trackDeallocation (categoryField w.memory header) (sizeField w.memory header),
      .rpfree header]
  else []

def operatorNewArray (size rawPtr : UInt64) (w : World) : Option Made := operatorNew size rawPtr w

def operatorDeleteArray (ptr : UInt64) (w : World) : List Event := operatorDelete ptr w

def operatorDeleteSized (ptr _size : UInt64) (w : World) : List Event := operatorDelete ptr w

def operatorDeleteArraySized (ptr _size : UInt64) (w : World) : List Event := operatorDelete ptr w

def operatorNewAligned (size alignment rawPtr : UInt64) (w : World) : Option Made :=
  let headerSize := getAlignedHeaderSize alignment
  let totalSize := headerSize + size
  if rawPtr ≠ 0 then
    some (track w (.rpalignedAlloc alignment totalSize) rawPtr (rawPtr + headerSize) size)
  else none

def operatorNewArrayAligned (size alignment rawPtr : UInt64) (w : World) : Option Made :=
  operatorNewAligned size alignment rawPtr w

def operatorDeleteAligned (ptr alignment : UInt64) (w : World) : List Event :=
  if ptr ≠ 0 then
    let headerSize := getAlignedHeaderSize alignment
    let rawPtr := ptr - headerSize
    [.notifyDeallocation ptr, .trackDeallocation (categoryField w.memory rawPtr) (sizeField w.memory rawPtr),
      .rpfree rawPtr]
  else []

def operatorDeleteArrayAligned (ptr alignment : UInt64) (w : World) : List Event :=
  operatorDeleteAligned ptr alignment w

def operatorDeleteSizedAligned (ptr _size alignment : UInt64) (w : World) : List Event :=
  operatorDeleteAligned ptr alignment w

def operatorDeleteArraySizedAligned (ptr _size alignment : UInt64) (w : World) : List Event :=
  operatorDeleteAligned ptr alignment w

def operatorNewNothrow (size rawPtr : UInt64) (w : World) : Option Made :=
  let totalSize := sizeofHeader + size
  if rawPtr ≠ 0 then some (track w (.rpmalloc totalSize) rawPtr (getUserPtr rawPtr) size)
  else some (untracked w (.rpmalloc totalSize) size)

def operatorNewArrayNothrow (size rawPtr : UInt64) (w : World) : Option Made :=
  operatorNewNothrow size rawPtr w

def operatorNewAlignedNothrow (size alignment rawPtr : UInt64) (w : World) : Option Made :=
  let headerSize := getAlignedHeaderSize alignment
  let totalSize := headerSize + size
  if rawPtr ≠ 0 then
    some (track w (.rpalignedAlloc alignment totalSize) rawPtr (rawPtr + headerSize) size)
  else some (untracked w (.rpalignedAlloc alignment totalSize) size)

def operatorNewArrayAlignedNothrow (size alignment rawPtr : UInt64) (w : World) : Option Made :=
  operatorNewAlignedNothrow size alignment rawPtr w

/-- How operator new is called. -/
inductive NewForm where
  | plain
  | aligned (alignment : UInt64)
  | nothrow
  | alignedNothrow (alignment : UInt64)
deriving DecidableEq

namespace NewForm

/-- The operators of a form, for an object and for an array. -/
def news (size rawPtr : UInt64) (w : World) : NewForm → List (Option Made)
  | .plain => [operatorNew size rawPtr w, operatorNewArray size rawPtr w]
  | .aligned alignment =>
    [operatorNewAligned size alignment rawPtr w, operatorNewArrayAligned size alignment rawPtr w]
  | .nothrow => [operatorNewNothrow size rawPtr w, operatorNewArrayNothrow size rawPtr w]
  | .alignedNothrow alignment =>
    [operatorNewAlignedNothrow size alignment rawPtr w, operatorNewArrayAlignedNothrow size alignment rawPtr w]

/-- The operators that match them, for an object and an array, without and with the size. -/
def deletes (ptr size : UInt64) (w : World) : NewForm → List (List Event)
  | .plain | .nothrow => [operatorDelete ptr w, operatorDeleteArray ptr w, operatorDeleteSized ptr size w,
      operatorDeleteArraySized ptr size w]
  | .aligned alignment | .alignedNothrow alignment =>
    [operatorDeleteAligned ptr alignment w, operatorDeleteArrayAligned ptr alignment w,
      operatorDeleteSizedAligned ptr size alignment w, operatorDeleteArraySizedAligned ptr size alignment w]

/-- The alignment asked for. What rpmalloc returns is a multiple of 16. -/
def alignment : NewForm → UInt64
  | .plain | .nothrow => 16
  | .aligned alignment | .alignedNothrow alignment => alignment

def headerSize : NewForm → UInt64
  | .plain | .nothrow => sizeofHeader
  | .aligned alignment | .alignedNothrow alignment => getAlignedHeaderSize alignment

/-- The call that asks for the raw block. -/
def request (size : UInt64) : NewForm → Event
  | .plain | .nothrow => .rpmalloc (sizeofHeader + size)
  | .aligned alignment | .alignedNothrow alignment =>
    .rpalignedAlloc alignment (getAlignedHeaderSize alignment + size)

end NewForm

/-- A raw block that is not null: at least the length asked for, at a multiple of
the alignment, inside of the address space. -/
structure RawBlock (totalSize alignment rawPtr : UInt64) (length : Nat) : Prop where
  nonnull : rawPtr ≠ 0
  served : totalSize.toNat ≤ length
  room : rawPtr.toNat + length < 2 ^ 64
  aligned : alignment.toNat ∣ rawPtr.toNat

/-- The user region lies in the raw block behind the header, and is aligned; and
each delete that comes later, with the bytes before the user region as they were,
frees the raw block and takes back what was tracked. -/
structure PairsUp (form : NewForm) (size rawPtr : UInt64) (length : Nat) (made : Made) : Prop where
  afterHeader : rawPtr.toNat + sizeofHeader.toNat ≤ made.userPtr.toNat
  inside : made.userPtr.toNat + size.toNat ≤ rawPtr.toNat + length
  aligned : form.alignment.toNat ∣ made.userPtr.toNat
  paired : ∃ category bytes, made.events = [form.request size, .trackAllocation category bytes,
      .notifyAllocation made.userPtr size] ∧
    ∀ later : World, (∀ i, rawPtr.toNat ≤ i → i < made.userPtr.toNat →
        later.memory i = made.world.memory i) →
      ∀ events ∈ form.deletes made.userPtr size later,
        events = [.notifyDeallocation made.userPtr, .trackDeallocation category bytes, .rpfree rawPtr]

variable {form : NewForm} {size rawPtr ptr : UInt64} {w : World}

/-- All operators new of a form do the same with a raw block. -/
theorem news_eq (hraw : rawPtr ≠ 0) : ∀ result ∈ form.news size rawPtr w,
    result = some (track w (form.request size) rawPtr (rawPtr + form.headerSize) size) := by
  cases form with
  | plain => simp [NewForm.news, operatorNewArray, operatorNew, hraw, getUserPtr, NewForm.request,
      NewForm.headerSize]
  | aligned alignment => simp [NewForm.news, operatorNewArrayAligned, operatorNewAligned, hraw,
      NewForm.request, NewForm.headerSize]
  | nothrow => simp [NewForm.news, operatorNewArrayNothrow, operatorNewNothrow, hraw, getUserPtr,
      NewForm.request, NewForm.headerSize]
  | alignedNothrow alignment => simp [NewForm.news, operatorNewArrayAlignedNothrow,
      operatorNewAlignedNothrow, hraw, NewForm.request, NewForm.headerSize]

/-- And all operators delete of a form do the same with a pointer. -/
theorem deletes_eq (hptr : ptr ≠ 0) : ∀ events ∈ form.deletes ptr size w,
    events = [.notifyDeallocation ptr,
      .trackDeallocation (categoryField w.memory (ptr - form.headerSize))
        (sizeField w.memory (ptr - form.headerSize)),
      .rpfree (ptr - form.headerSize)] := by
  cases form with
  | plain | nothrow => simp [NewForm.deletes, operatorDeleteArray, operatorDeleteSized,
      operatorDeleteArraySized, operatorDelete, hptr, getHeader, NewForm.headerSize]
  | aligned alignment | alignedNothrow alignment => simp [NewForm.deletes, operatorDeleteArrayAligned,
      operatorDeleteSizedAligned, operatorDeleteArraySizedAligned, operatorDeleteAligned, hptr,
      NewForm.headerSize]

/-- The user region starts at a multiple of the alignment, behind the header. -/
theorem alignedHeader_spec {alignment : UInt64} (hp : IsPowerOfTwo alignment) :
    alignment.toNat ∣ (getAlignedHeaderSize alignment).toNat ∧
      16 ≤ (getAlignedHeaderSize alignment).toNat ∧ (getAlignedHeaderSize alignment).toNat ≤ 2 ^ 63 := by
  have hle := hp.dvd.2
  have hsixteen : sizeofHeader.toNat = 16 := rfl
  have hroom : sizeofHeader.toNat + alignment.toNat ≤ 2 ^ 64 := by omega
  obtain ⟨hdvd, hlow, hup⟩ := alignUp_spec hp hroom
  have hsame : getAlignedHeaderSize alignment = alignUp sizeofHeader alignment := rfl
  rw [hsame]
  refine ⟨hdvd, hlow, ?_⟩
  rcases Nat.lt_or_ge alignment.toNat 17 with hsmall | hlarge
  · omega
  · obtain ⟨c, hc⟩ := hdvd
    have hone : c < 2 := by
      by_contra htwo
      have := Nat.mul_le_mul_left alignment.toNat (Nat.not_lt.mp htwo)
      omega
    have := Nat.mul_le_mul_left alignment.toNat (Nat.lt_succ_iff.mp hone)
    omega

theorem headerSize_spec (hp : IsPowerOfTwo form.alignment) :
    form.alignment.toNat ∣ form.headerSize.toNat ∧ 16 ≤ form.headerSize.toNat ∧
      form.headerSize.toNat ≤ 2 ^ 63 := by
  cases form with
  | plain | nothrow => decide
  | aligned alignment | alignedNothrow alignment => exact alignedHeader_spec hp

section Header
variable {m m' : Memory} {header : UInt64}

theorem sizeField_setHeader (m : Memory) (header : UInt64) (category : CategoryId) (size : UInt64) :
    sizeField (setHeader m header category size) header = size :=
  load64_store64 ..

variable (h : header.toNat + 16 ≤ 2 ^ 64)
include h

theorem sizeField_address : (header + 8).toNat = header.toNat + 8 := by
  rw [UInt64.toNat_add]
  exact Nat.mod_eq_of_lt (by change header.toNat + 8 < 2 ^ 64; omega)

theorem categoryField_setHeader (m : Memory) (category : CategoryId) (size : UInt64) :
    categoryField (setHeader m header category size) header = category := by
  have hkept : load (setHeader m header category size) header.toNat 2 =
      load (store m header.toNat 2 category.toNat) header.toNat 2 := by
    refine load_congr fun i hl hu => store64_frame ?_
    rw [sizeField_address h]
    omega
  have hfits : category.toNat % 256 ^ 2 = category.toNat := Nat.mod_eq_of_lt category.toNat_lt
  rw [categoryField, hkept, load_store, hfits, UInt16.ofNat_toNat]

/-- Both fields are read from the 16 bytes of the header. -/
theorem header_congr (hm : ∀ i, header.toNat ≤ i → i < header.toNat + 16 → m i = m' i) :
    categoryField m header = categoryField m' header ∧ sizeField m header = sizeField m' header := by
  constructor
  · rw [categoryField, categoryField, load_congr fun i hl hu => hm i hl (by omega)]
  · rw [sizeField, sizeField, sizeField_address h]
    exact load64_congr fun i hl hu => hm i (by omega) (by omega)

end Header

/-- The pairing holds for every raw block if the length asked for does not wrap. -/
theorem pairsUp_of_fits (hp : IsPowerOfTwo form.alignment)
    (hfits : form.headerSize.toNat + size.toNat < 2 ^ 64) {length : Nat}
    (hblock : RawBlock (form.headerSize + size) form.alignment rawPtr length) :
    PairsUp form size rawPtr length
      (track w (form.request size) rawPtr (rawPtr + form.headerSize) size) := by
  obtain ⟨hdvd, hheader, _⟩ := headerSize_spec hp
  have hlength := hblock.served
  have hroom := hblock.room
  rw [UInt64.toNat_add, Nat.mod_eq_of_lt hfits] at hlength
  have huser : (rawPtr + form.headerSize).toNat = rawPtr.toNat + form.headerSize.toNat := by
    rw [UInt64.toNat_add]
    exact Nat.mod_eq_of_lt (by omega)
  have hsixteen : sizeofHeader.toNat = 16 := rfl
  have hback : rawPtr + form.headerSize - form.headerSize = rawPtr := UInt64.add_sub_cancel ..
  have hnonnull : rawPtr + form.headerSize ≠ 0 := by
    intro hzero
    rw [hzero, UInt64.toNat_zero] at huser
    omega
  refine ⟨?_, ?_, ?_, w.currentCategory, size, rfl, fun later hkept events hevents => ?_⟩
  · simp only [track, huser]
    omega
  · simp only [track, huser]
    omega
  · simp only [track, huser]
    exact Nat.dvd_add hblock.aligned hdvd
  · simp only [track, huser] at hkept hevents ⊢
    obtain ⟨hcategory, hsize⟩ := header_congr
      (by omega : rawPtr.toNat + 16 ≤ 2 ^ 64)
      fun i hl hu => hkept i hl (by omega)
    rw [deletes_eq hnonnull events hevents, hback, hcategory, hsize, categoryField_setHeader (by omega),
      sizeField_setHeader]

/-- Where it wraps there is a raw block that ends before the user region does. -/
theorem exists_short_block (hp : IsPowerOfTwo form.alignment)
    (hwraps : 2 ^ 64 ≤ form.headerSize.toNat + size.toNat) :
    ∃ rawPtr length, RawBlock (form.headerSize + size) form.alignment rawPtr length ∧
      ∀ made, made.userPtr = rawPtr + form.headerSize → ¬ PairsUp form size rawPtr length made := by
  obtain ⟨hdvd, hheader, hle⟩ := headerSize_spec hp
  have hsize := size.toNat_lt
  have htotal : (form.headerSize + size).toNat = form.headerSize.toNat + size.toNat - 2 ^ 64 := by
    rw [UInt64.toNat_add]
    omega
  have hnonnull : form.headerSize ≠ 0 := by
    intro hzero
    rw [hzero, UInt64.toNat_zero] at hheader
    cases hheader
  refine ⟨form.headerSize, _, ⟨hnonnull, Nat.le_refl _, by omega, hdvd⟩, fun made hmade hpairs => ?_⟩
  have hafter := hpairs.afterHeader
  have hinside := hpairs.inside
  rw [hmade, UInt64.toNat_add] at hafter hinside
  rw [htotal] at hinside
  omega

/-- The operators of a form pair up, whatever the current category is at the delete,
exactly if header and size can be counted in 64 bits. -/
theorem operators_pair_iff (form : NewForm) (hp : IsPowerOfTwo form.alignment) (size : UInt64)
    (w : World) :
    (∀ rawPtr length, RawBlock (form.headerSize + size) form.alignment rawPtr length →
      ∀ result ∈ form.news size rawPtr w, ∃ made, result = some made ∧
        PairsUp form size rawPtr length made) ↔
    form.headerSize.toNat + size.toNat < 2 ^ 64 := by
  constructor
  · intro hpairs
    by_contra hwraps
    obtain ⟨rawPtr, length, hblock, hnot⟩ := exists_short_block hp (Nat.not_lt.mp hwraps)
    obtain ⟨result, hresult⟩ : ∃ result, result ∈ form.news size rawPtr w := by
      cases form with
      | plain | aligned | nothrow | alignedNothrow => exact ⟨_, List.mem_cons_self⟩
    obtain ⟨made, hmade, hpaired⟩ := hpairs rawPtr length hblock result hresult
    rw [news_eq hblock.nonnull result hresult, Option.some.injEq] at hmade
    exact hnot made (by rw [← hmade]; rfl) hpaired
  · intro hfits rawPtr length hblock result hresult
    exact ⟨_, news_eq hblock.nonnull result hresult, pairsUp_of_fits hp hfits hblock⟩

/-- A hundred bytes at a multiple of 64. -/
theorem operators_pair_aligned :
    IsPowerOfTwo (NewForm.aligned 64).alignment ∧
      ∀ rawPtr length, RawBlock ((NewForm.aligned 64).headerSize + 100) 64 rawPtr length →
        ∀ result ∈ (NewForm.aligned 64).news 100 rawPtr ⟨5, fun _ => 0⟩,
          ∃ made, result = some made ∧ PairsUp (.aligned 64) 100 rawPtr length made := by
  have hp : IsPowerOfTwo (NewForm.aligned 64).alignment := by decide
  exact ⟨hp, (operators_pair_iff (.aligned 64) hp 100 ⟨5, fun _ => 0⟩).mpr (by decide)⟩

/-- Eight bytes less than 2^64 are asked for, and a block of eight bytes will do. -/
theorem operatorNew_wraps : RawBlock (sizeofHeader + 0xFFFFFFFFFFFFFFF8) 16 4096 8 ∧
    ∃ made, operatorNew 0xFFFFFFFFFFFFFFF8 4096 ⟨Category.Global, fun _ => 0⟩ = some made ∧
      made.userPtr = 4112 ∧ ¬ PairsUp .plain 0xFFFFFFFFFFFFFFF8 4096 8 made := by
  refine ⟨⟨by decide, by decide, by decide, by decide⟩, _, rfl, rfl, fun hpairs => ?_⟩
  exact absurd hpairs.inside (by decide)

end TgeCore.Memory.GlobalOperators
