import Mathlib.Algebra.Group.Nat.Defs
import TgeCore.Library.Buffer
import TgeCore.Library.Machine

namespace TgeCore.IO
open Library

/-- A vector of bytes. Its size is a size_t. -/
structure ByteVector where
  bytes : List UInt8
  size_lt : bytes.length < 2 ^ 64

namespace ByteVector

def empty : ByteVector := ⟨[], Nat.two_pow_pos 64⟩

def size (v : ByteVector) : UInt64 := UInt64.ofNat v.bytes.length

def resize (v : ByteVector) (size : UInt64) : ByteVector where
  bytes := Buffer.resize v.bytes size.toNat 0
  size_lt := by
    rw [Buffer.length_resize]
    exact size.toNat_lt

/-- Copies bytes into the vector, from a place in it on. -/
def store (v : ByteVector) (place : UInt64) (items : List UInt8) : Option ByteVector :=
  match h : Buffer.store v.bytes place.toNat items with
  | some bytes => some ⟨bytes, Buffer.length_store h ▸ v.size_lt⟩
  | none => none

end ByteVector

structure CBinaryReader where
  data : ByteVector
  position : UInt64 := 0

/-- The destination's bytes where some are copied. There is no result when the copy reads outside of the data. -/
def CBinaryReader.readBytes (r : CBinaryReader) (size : UInt64) : Option (CBinaryReader × Option (List UInt8)) :=
  if r.position + size ≤ r.data.size then
    (Buffer.load r.data.bytes r.position.toNat size.toNat).map fun bytes =>
      ({ r with position := r.position + size }, some bytes)
  else some (r, none)

def CBinaryReader.isEOF (r : CBinaryReader) : Bool := r.position ≥ r.data.size

def CBinaryReader.seek (r : CBinaryReader) (offset : UInt64) : CBinaryReader :=
  { r with position := if r.data.size < offset then r.data.size else offset }

structure CBinaryWriter where
  data : ByteVector := .empty

def CBinaryWriter.writeBytes (w : CBinaryWriter) (src : ByteVector) : Option CBinaryWriter :=
  let oldSize := w.data.size
  ((w.data.resize (oldSize + src.size)).store oldSize src.bytes).map fun data => { data }

inductive ReaderCall where
  | readBytes (size : UInt64)
  | seek (offset : UInt64)

def CBinaryReader.step (r : CBinaryReader) : ReaderCall → Option (CBinaryReader × Option (List UInt8))
  | .readBytes size => r.readBytes size
  | .seek offset => some (r.seek offset, none)

def binaryReader : Machine CBinaryReader ReaderCall (Option (List UInt8)) := ⟨CBinaryReader.step⟩

/-- What a caller relies on: the bytes asked for are copied if the data has them all, else nothing
happens, and the position stays within the data. -/
inductive CBinaryReader.InBounds (r : CBinaryReader) : ReaderCall → Prop where
  | copied {size : UInt64} {s : CBinaryReader} (hfits : r.position.toNat + size.toNat ≤ r.data.bytes.length)
      (hstep : r.step (.readBytes size) = some (s, some ((r.data.bytes.drop r.position.toNat).take size.toNat)))
      (hdata : s.data = r.data) (hposition : s.position.toNat = r.position.toNat + size.toNat) : InBounds r (.readBytes size)
  | refused {size : UInt64} (hover : r.data.bytes.length < r.position.toNat + size.toNat)
      (hstep : r.step (.readBytes size) = some (r, none)) : InBounds r (.readBytes size)
  | seeks {offset : UInt64} {s : CBinaryReader} (hstep : r.step (.seek offset) = some (s, none)) (hdata : s.data = r.data)
      (hposition : s.position.toNat ≤ r.data.bytes.length) : InBounds r (.seek offset)

/-- The position and the size have a sum in 64 bits. -/
def CBinaryReader.NoWrap (r : CBinaryReader) : ReaderCall → Prop
  | .readBytes size => r.position.toNat + size.toNat < 2 ^ 64
  | .seek _ => True

variable {r s : CBinaryReader}

theorem ByteVector.size_toNat (v : ByteVector) : v.size.toNat = v.bytes.length :=
  UInt64.toNat_ofNat_of_lt' v.size_lt

namespace CBinaryReader

theorem readBytes_noWrap {size : UInt64} (h : r.position.toNat + size.toNat < 2 ^ 64) : r.InBounds (.readBytes size) := by
  have hsum : (r.position + size).toNat = r.position.toNat + size.toNat := by
    rw [UInt64.toNat_add]
    exact Nat.mod_eq_of_lt h
  have hcheck : r.position + size ≤ r.data.size ↔ r.position.toNat + size.toNat ≤ r.data.bytes.length := by
    rw [UInt64.le_iff_toNat_le, hsum, r.data.size_toNat]
  by_cases hfits : r.position.toNat + size.toNat ≤ r.data.bytes.length
  · refine .copied hfits (s := { r with position := r.position + size }) ?_ rfl hsum
    unfold step readBytes
    simp only [if_pos (hcheck.mpr hfits), Buffer.load_eq_some_iff.mpr ⟨hfits, rfl⟩, Option.map_some]
  · refine .refused (Nat.lt_of_not_le hfits) ?_
    unfold step readBytes
    simp only [if_neg (mt hcheck.mp hfits)]

/-- A sum that wraps around passes the check, and the copy starts to read where the data may have ended. -/
theorem readBytes_wraps {size : UInt64} (hposition : r.position.toNat ≤ r.data.bytes.length)
    (h : 2 ^ 64 ≤ r.position.toNat + size.toNat) : r.readBytes size = none := by
  have hlt := r.position.toNat_lt
  have hlt' := size.toNat_lt
  have hsum : (r.position + size).toNat = r.position.toNat + size.toNat - 2 ^ 64 := by
    rw [UInt64.toNat_add, Nat.mod_eq_sub_mod h]
    exact Nat.mod_eq_of_lt (by omega)
  have hcheck : r.position + size ≤ r.data.size := by
    rw [UInt64.le_iff_toNat_le, hsum, r.data.size_toNat]
    omega
  have hover : Buffer.load r.data.bytes r.position.toNat size.toNat = none := by
    unfold Buffer.load
    have hlength := r.data.size_lt
    exact if_neg (by omega)
  unfold readBytes
  rw [if_pos hcheck, hover, Option.map_none]

theorem seek_position (r : CBinaryReader) (offset : UInt64) :
    (r.seek offset).position.toNat ≤ r.data.bytes.length := by
  rw [← r.data.size_toNat]
  unfold seek
  split
  · exact Nat.le_refl _
  · rename_i hle
    exact UInt64.le_iff_toNat_le.mp (UInt64.not_lt.mp hle)

/-- A call is right exactly when its sum does not wrap around. -/
theorem inBounds_iff (hposition : r.position.toNat ≤ r.data.bytes.length) (call : ReaderCall) :
    r.InBounds call ↔ r.NoWrap call := by
  cases call with
  | seek offset => exact iff_of_true (.seeks rfl rfl (r.seek_position offset)) trivial
  | readBytes size =>
    refine ⟨fun h => ?_, readBytes_noWrap⟩
    by_contra hwraps
    have hnone : r.step (.readBytes size) = none := readBytes_wraps hposition (Nat.not_lt.mp hwraps)
    cases h with
    | copied hfits hstep hdata hposition' =>
      rw [hnone] at hstep
      cases hstep
    | refused hover hstep =>
      rw [hnone] at hstep
      cases hstep

/-- A call that returns leaves the position within the data. -/
theorem step_position {call : ReaderCall} {out : Option (List UInt8)} (hposition : r.position.toNat ≤ r.data.bytes.length)
    (h : r.step call = some (s, out)) : s.position.toNat ≤ s.data.bytes.length := by
  have hinBounds : r.InBounds call := by
    refine (inBounds_iff hposition call).mpr ?_
    cases call with
    | seek offset => trivial
    | readBytes size =>
      by_contra hwraps
      have hnone : r.step (.readBytes size) = none := readBytes_wraps hposition (Nat.not_lt.mp hwraps)
      rw [hnone] at h
      cases h
  cases hinBounds with
  | copied hfits hstep hdata hposition' =>
    cases h.symm.trans hstep
    rw [hposition', hdata]
    exact hfits
  | refused hover hstep =>
    cases h.symm.trans hstep
    exact hposition
  | seeks hstep hdata hposition' =>
    cases h.symm.trans hstep
    rw [hdata]
    exact hposition'

theorem run_position {calls : List ReaderCall} {outs : List (Option (List UInt8))}
    (hposition : r.position.toNat ≤ r.data.bytes.length) (h : binaryReader.run r calls = some (s, outs)) :
    s.position.toNat ≤ s.data.bytes.length :=
  Machine.run_keeps (fun r => r.position.toNat ≤ r.data.bytes.length) (fun _ _ _ _ hr hstep => step_position hr hstep)
    hposition h

end CBinaryReader

section RoundTrip

/-- Blocks one after the other. -/
def CBinaryWriter.writeBlocks : CBinaryWriter → List ByteVector → Option CBinaryWriter
  | w, [] => some w
  | w, src :: rest => (w.writeBytes src).bind fun w => w.writeBlocks rest

def blockBytes (blocks : List ByteVector) : List UInt8 := blocks.flatMap ByteVector.bytes

theorem ByteVector.store_eq {v : ByteVector} {place : UInt64} {items bytes : List UInt8}
    (h : Buffer.store v.bytes place.toNat items = some bytes) :
    v.store place items = some ⟨bytes, Buffer.length_store h ▸ v.size_lt⟩ := by
  unfold ByteVector.store
  split
  · rename_i bytes' h'
    cases h.symm.trans h'
    rfl
  · rename_i h'
    rw [h] at h'
    cases h'

/-- A block is put behind those that are there. -/
theorem CBinaryWriter.writeBytes_eq (w : CBinaryWriter) (src : ByteVector)
    (h : (w.data.bytes ++ src.bytes).length < 2 ^ 64) : w.writeBytes src = some ⟨⟨w.data.bytes ++ src.bytes, h⟩⟩ := by
  rw [List.length_append] at h
  have hsize : (w.data.size + src.size).toNat = w.data.bytes.length + src.bytes.length := by
    rw [UInt64.toNat_add, w.data.size_toNat, src.size_toNat]
    exact Nat.mod_eq_of_lt h
  have hstore : Buffer.store (w.data.resize (w.data.size + src.size)).bytes w.data.size.toNat src.bytes =
      some (w.data.bytes ++ src.bytes) := by
    rw [← Buffer.store_resize w.data.bytes src.bytes 0, ← hsize, ← w.data.size_toNat]
    rfl
  unfold writeBytes
  simp only [ByteVector.store_eq hstore, Option.map_some]

theorem blockBytes_cons (src : ByteVector) (blocks : List ByteVector) :
    blockBytes (src :: blocks) = src.bytes ++ blockBytes blocks := List.flatMap_cons

theorem CBinaryWriter.writeBlocks_eq (w : CBinaryWriter) (blocks : List ByteVector)
    (h : (w.data.bytes ++ blockBytes blocks).length < 2 ^ 64) :
    ∃ v, w.writeBlocks blocks = some v ∧ v.data.bytes = w.data.bytes ++ blockBytes blocks := by
  induction blocks generalizing w with
  | nil => exact ⟨w, rfl, (List.append_nil _).symm⟩
  | cons src blocks ih =>
    rw [blockBytes_cons, ← List.append_assoc] at h
    have hsrc : (w.data.bytes ++ src.bytes).length < 2 ^ 64 := by
      rw [List.length_append] at h
      omega
    obtain ⟨v, hv, hdata⟩ := ih ⟨⟨w.data.bytes ++ src.bytes, hsrc⟩⟩ h
    refine ⟨v, ?_, ?_⟩
    · rw [writeBlocks, w.writeBytes_eq src hsrc, Option.bind_some, hv]
    · rw [hdata, blockBytes_cons, List.append_assoc]

/-- Reading goes on with the block that begins at the position. -/
theorem CBinaryReader.readBlocks (r : CBinaryReader) (before : List UInt8) (blocks : List ByteVector)
    (hdata : r.data.bytes = before ++ blockBytes blocks) (hposition : r.position.toNat = before.length) :
    ∃ s, binaryReader.run r (blocks.map fun src => .readBytes src.size) = some (s, blocks.map fun src => some src.bytes) ∧
      s.data = r.data ∧ s.position.toNat = r.data.bytes.length := by
  induction blocks generalizing r before with
  | nil =>
    refine ⟨r, rfl, rfl, ?_⟩
    rw [hposition, hdata, show blockBytes [] = [] from rfl, List.append_nil]
  | cons src blocks ih =>
    rw [blockBytes_cons] at hdata
    have hlength : r.data.bytes.length = before.length + (src.bytes.length + (blockBytes blocks).length) := by
      rw [hdata, List.length_append, List.length_append]
    have hlt := r.data.size_lt
    have hnoWrap : r.position.toNat + src.size.toNat < 2 ^ 64 := by
      rw [hposition, src.size_toNat]
      omega
    cases readBytes_noWrap hnoWrap with
    | refused hover hstep =>
      rw [hposition, src.size_toNat] at hover
      omega
    | copied hfits hstep hkept hmoved =>
      rename_i s
      have hbytes : (r.data.bytes.drop r.position.toNat).take src.size.toNat = src.bytes := by
        rw [hposition, src.size_toNat, hdata, List.drop_left, List.take_left]
      rw [hbytes] at hstep
      obtain ⟨t, hrun, hkept', hend⟩ := ih s (before ++ src.bytes)
        (by rw [hkept, hdata, List.append_assoc]) (by rw [hmoved, hposition, src.size_toNat, List.length_append])
      rw [hkept] at hkept' hend
      exact ⟨t, Machine.run_cons_eq_some.mpr ⟨s, _, _, hstep, hrun, rfl⟩, hkept', hend⟩

end RoundTrip

/-- In any run over any data the calls are right exactly when no sum of a position and a size wraps
around, and the position never leaves the data. Blocks that were written are read back, up to the end. -/
theorem binaryReader_inBounds_iff (data : ByteVector) (calls : List ReaderCall) (blocks : List ByteVector) :
    (binaryReader.Along CBinaryReader.InBounds { data } calls ↔
      binaryReader.Along CBinaryReader.NoWrap { data } calls) ∧
    (∀ r outs, binaryReader.run { data } calls = some (r, outs) → r.position.toNat ≤ r.data.bytes.length) ∧
    ((blockBytes blocks).length < 2 ^ 64 → ∃ w r, CBinaryWriter.writeBlocks {} blocks = some w ∧
      binaryReader.run { data := w.data } (blocks.map fun src => .readBytes src.size) =
        some (r, blocks.map fun src => some src.bytes) ∧ r.isEOF = true) := by
  refine ⟨?_, fun r outs hrun => ?_, fun hfits => ?_⟩
  · exact Machine.Along.iff (fun r => r.position.toNat ≤ r.data.bytes.length)
      (fun _ call hr => CBinaryReader.inBounds_iff hr call) (fun _ _ _ _ hr hstep => CBinaryReader.step_position hr hstep)
      (Nat.zero_le _) calls
  · exact CBinaryReader.run_position (Nat.zero_le _) hrun
  · obtain ⟨w, hw, hdata⟩ := CBinaryWriter.writeBlocks_eq {} blocks hfits
    obtain ⟨r, hrun, hkept, hend⟩ := CBinaryReader.readBlocks { data := w.data } [] blocks hdata rfl
    refine ⟨w, r, hw, hrun, decide_eq_true ?_⟩
    show r.data.size ≤ r.position
    rw [UInt64.le_iff_toNat_le, r.data.size_toNat, hkept]
    exact Nat.le_of_eq hend.symm

/-- One byte is read, then as many more as a size_t can say: the sum is 0. -/
theorem readBytes_outside : ¬binaryReader.Along CBinaryReader.InBounds { data := ⟨[7], by decide⟩ }
    [.readBytes 1, .readBytes 0xFFFFFFFFFFFFFFFF] := by
  intro halong
  have hnext := (halong.2 ({ data := ⟨[7], by decide⟩, position := 1 }, some [7]) rfl).1
  have hposition : (1 : UInt64).toNat ≤ [(7 : UInt8)].length := by decide
  have hnoWrap := (CBinaryReader.inBounds_iff hposition _).mp hnext
  exact absurd hnoWrap (by unfold CBinaryReader.NoWrap; decide)

end TgeCore.IO
