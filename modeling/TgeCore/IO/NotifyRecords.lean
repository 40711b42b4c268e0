import TgeCore.Library.Buffer
import TgeCore.Library.LittleEndian

namespace TgeCore.IO
open Library LittleEndian

def FILE_ACTION_MODIFIED : UInt32 := 3

/-- A change of a folder as Windows records it: what was done, to which name below the folder. -/
structure NotifyRecord where
  action : UInt32
  name : List UInt16
deriving DecidableEq

/-- FILE_NOTIFY_INFORMATION: how far on the next entry is, the action, the bytes of the name and the name. -/
def NotifyRecord.entry (record : NotifyRecord) (nextEntryOffset : Nat) : List UInt8 :=
  bytesOf 4 nextEntryOffset ++ (bytesOf 4 record.action.toNat ++ (bytesOf 4 (2 * record.name.length) ++
    record.name.flatMap fun char => bytesOf 2 char.toNat))

/-- The buffer as the system fills it. What it leaves free after an entry is up to it, and the last entry has no next. -/
def encode : List (NotifyRecord × List UInt8) → List UInt8
  | [] => []
  | [(record, gap)] => record.entry 0 ++ gap
  | (record, gap) :: next :: rest => record.entry ((record.entry 0).length + gap.length) ++ gap ++ encode (next :: rest)

/-- The wide characters of a name. An odd byte at its end is not part of one. -/
def charsOf : List UInt8 → List UInt16
  | low :: high :: bytes => UInt16.ofNat (valueOf [low, high]) :: charsOf bytes
  | _ => []

/-- What the loop of CollectPaths reads of one entry. There is no result when it reads outside of the buffer. -/
def readEntry (buffer : List UInt8) (place : Nat) : Option (Nat × NotifyRecord) := do
  let nextEntryOffset ← Buffer.load buffer place 4
  let action ← Buffer.load buffer (place + 4) 4
  let fileNameLength ← Buffer.load buffer (place + 8) 4
  let fileName ← Buffer.load buffer (place + 12) (valueOf fileNameLength)
  some (valueOf nextEntryOffset, ⟨UInt32.ofNat (valueOf action), charsOf fileName⟩)

/-- The entries from a place on, with as many rounds of the loop as the number says at most. -/
def readEntries (buffer : List UInt8) : Nat → Nat → Option (List NotifyRecord)
  | 0, _ => none
  | rounds + 1, place =>
    (readEntry buffer place).bind fun entry =>
      if entry.1 = 0 then some [entry.2]
      else (readEntries buffer rounds (place + entry.1)).map (entry.2 :: ·)

/-- A folder's own last write is left out. -/
def isReported (isDirectory : List UInt16 → Bool) (record : NotifyRecord) : Bool :=
  record.action ≠ FILE_ACTION_MODIFIED || !isDirectory record.name

def reportedPaths (isDirectory : List UInt16 → Bool) (records : List NotifyRecord) : List (List UInt16) :=
  (records.filter (isReported isDirectory)).map NotifyRecord.name

def collectPaths (isDirectory : List UInt16 → Bool) (buffer : List UInt8) : Option (List (List UInt16)) :=
  (readEntries buffer buffer.length 0).map (reportedPaths isDirectory)

section Decode
variable {front back : List UInt8} {record : NotifyRecord}

theorem length_entry (record : NotifyRecord) (nextEntryOffset : Nat) :
    (record.entry nextEntryOffset).length = 12 + 2 * record.name.length := by
  have hname : (record.name.flatMap fun char => bytesOf 2 char.toNat).length = 2 * record.name.length := by
    simp [List.length_flatMap, Nat.mul_comm]
  simp only [NotifyRecord.entry, List.length_append, length_bytesOf, hname]
  omega

theorem charsOf_name (name : List UInt16) : charsOf (name.flatMap fun char => bytesOf 2 char.toNat) = name := by
  induction name with
  | nil => rfl
  | cons char name ih =>
    have hchar : valueOf (bytesOf 2 char.toNat) = char.toNat := valueOf_bytesOf char.toNat_lt
    rw [List.flatMap_cons]
    change UInt16.ofNat (valueOf (bytesOf 2 char.toNat)) :: charsOf (name.flatMap fun char => bytesOf 2 char.toNat) = _
    rw [hchar, ih, UInt16.ofNat_toNat]

theorem readEntry_entry {nextEntryOffset : Nat} (hnext : nextEntryOffset < 256 ^ 4)
    (hname : 2 * record.name.length < 256 ^ 4) (front back : List UInt8) :
    readEntry (front ++ (record.entry nextEntryOffset ++ back)) front.length = some (nextEntryOffset, record) := by
  let next := bytesOf 4 nextEntryOffset
  let action := bytesOf 4 record.action.toNat
  let size := bytesOf 4 (2 * record.name.length)
  let name := record.name.flatMap fun char => bytesOf 2 char.toNat
  have hchars : name.length = 2 * record.name.length := by simp [name, List.length_flatMap, Nat.mul_comm]
  have hbuffer : front ++ (record.entry nextEntryOffset ++ back) = front ++ (next ++ (action ++ (size ++ (name ++ back)))) := by
    simp [NotifyRecord.entry, next, action, size, name]
  have hsecond : front ++ (record.entry nextEntryOffset ++ back) = (front ++ next) ++ (action ++ (size ++ (name ++ back))) := by
    rw [hbuffer, List.append_assoc]
  have hthird : front ++ (record.entry nextEntryOffset ++ back) = (front ++ next ++ action) ++ (size ++ (name ++ back)) := by
    rw [hsecond]
    simp
  have hfourth : front ++ (record.entry nextEntryOffset ++ back) = (front ++ next ++ action ++ size) ++ (name ++ back) := by
    rw [hthird]
    simp
  have hsize : valueOf size = name.length := by
    rw [hchars]
    exact valueOf_bytesOf hname
  rw [readEntry, Buffer.load_middle hbuffer rfl (by simp [next]),
    Buffer.load_middle hsecond (by simp [next]) (by simp [action]),
    Buffer.load_middle hthird (by simp [next, action]) (by simp [size])]
  simp only [Option.bind_eq_bind, Option.bind_some, Buffer.load_middle hfourth
    (by simp [next, action, size] : front.length + 12 = _) hsize]
  rw [valueOf_bytesOf hnext, valueOf_bytesOf record.action.toNat_lt, charsOf_name, UInt32.ofNat_toNat]

theorem length_entries_le (entries : List (NotifyRecord × List UInt8)) : entries.length ≤ (encode entries).length := by
  match entries with
  | [] => exact Nat.le_refl 0
  | [last] =>
    simp only [encode, List.length_append, length_entry, List.length_cons, List.length_nil]
    omega
  | first :: next :: rest =>
    have hle := length_entries_le (next :: rest)
    simp only [encode, List.length_append, length_entry, List.length_cons] at hle ⊢
    omega

/-- The loop gives the records that were written, wherever in a buffer they stand and whatever is around them. -/
theorem readEntries_encode (record : NotifyRecord) (gap : List UInt8) (rest : List (NotifyRecord × List UInt8))
    (hfits : (encode ((record, gap) :: rest)).length < 256 ^ 4) {rounds : Nat} (hrounds : rest.length < rounds)
    (front back : List UInt8) :
    readEntries (front ++ (encode ((record, gap) :: rest) ++ back)) rounds front.length =
      some (record :: rest.map Prod.fst) := by
  induction rest generalizing record gap rounds front with
  | nil =>
    obtain ⟨rounds, rfl⟩ : ∃ fewer, rounds = fewer + 1 := ⟨rounds - 1, by simp only [List.length_nil] at hrounds; omega⟩
    rw [encode, List.length_append, length_entry] at hfits
    have hread := @readEntry_entry record 0 (by omega) (by omega) front (gap ++ back)
    rw [encode, List.append_assoc, readEntries, hread, Option.bind_some, if_pos rfl, List.map_nil]
  | cons next rest ih =>
    obtain ⟨nextRecord, nextGap⟩ := next
    obtain ⟨rounds, rfl⟩ : ∃ fewer, rounds = fewer + 1 := ⟨rounds - 1, by omega⟩
    rw [encode, List.length_append, List.length_append, length_entry] at hfits
    let offset := (record.entry 0).length + gap.length
    have hoffset : offset = 12 + 2 * record.name.length + gap.length := by rw [← length_entry record 0]
    let passed := front ++ (record.entry offset ++ gap)
    have hplace : front.length + offset = passed.length := by
      simp only [passed, List.length_append, length_entry, hoffset]
    have hbuffer : front ++ (encode ((record, gap) :: (nextRecord, nextGap) :: rest) ++ back) =
        passed ++ (encode ((nextRecord, nextGap) :: rest) ++ back) := by simp [encode, passed, offset]
    have hread : readEntry (passed ++ (encode ((nextRecord, nextGap) :: rest) ++ back)) front.length =
        some (offset, record) := by
      have hread := @readEntry_entry record offset (by omega) (by omega) front
        (gap ++ (encode ((nextRecord, nextGap) :: rest) ++ back))
      simpa only [passed, List.append_assoc] using hread
    have hagain := ih nextRecord nextGap (by omega) (Nat.lt_of_succ_lt_succ hrounds) passed
    rw [hbuffer, readEntries, hread, Option.bind_some, if_neg (by omega), hplace, hagain]
    rfl

/-- CollectPaths undoes what the system wrote into the buffer: it reports each change in order, less those that only tell
that a folder was written, and reads nothing outside of the buffer. -/
theorem collectPaths_encode {entries : List (NotifyRecord × List UInt8)} (hsome : entries ≠ [])
    (hfits : (encode entries).length < 256 ^ 4) (isDirectory : List UInt16 → Bool) (back : List UInt8) :
    collectPaths isDirectory (encode entries ++ back) =
      some (reportedPaths isDirectory (entries.map Prod.fst)) := by
  obtain ⟨⟨record, gap⟩, rest, rfl⟩ := List.exists_cons_of_ne_nil hsome
  have hlength := length_entries_le ((record, gap) :: rest)
  have hrounds : rest.length < (encode ((record, gap) :: rest) ++ back).length := by
    rw [List.length_append]
    exact Nat.lt_of_lt_of_le hlength (Nat.le_add_right ..)
  have hread := readEntries_encode record gap rest hfits hrounds [] back
  rw [collectPaths]
  exact congrArg (Option.map _) hread

/-- A file is added, and then its folder and the file are written. -/
theorem collectPaths_encode_two : collectPaths (fun name => name = [0x67])
    (encode [(⟨1, [0x61]⟩, [0, 0]), (⟨3, [0x67]⟩, []), (⟨3, [0x61]⟩, [])] ++ [7]) = some [[0x61], [0x61]] := by
  have hsome : [(⟨1, [0x61]⟩, [0, 0]), (⟨3, [0x67]⟩, []), (⟨3, [0x61]⟩, [])] ≠ ([] : List (NotifyRecord × List UInt8)) := by simp
  rw [collectPaths_encode hsome (by decide)]
  decide

end Decode

end TgeCore.IO
