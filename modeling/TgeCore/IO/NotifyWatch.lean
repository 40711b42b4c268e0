import TgeCore.Library.Machine
import TgeCore.IO.NotifyRecords

namespace TgeCore.IO.Windows
open Library

def BufferSize : Nat := 64 * 1024

inductive WatchError where
  | system (code : Int)
  | not_a_directory
  | operation_canceled
deriving DecidableEq

structure SDirectoryChanges where
  paths : List (List UInt16) := []
  hasOverflowed : Bool := false

/-- The handles say whether there are any. -/
structure SNativeDirectoryWatch where
  folder : Bool := false
  hEvent : Bool := false
  buffer : List UInt8 := []
  isReadPending : Bool := false

/-- What a read of a folder's changes ends with: bytes in the buffer, of which there are none if there were too many
changes, the same said as an error, or another error. -/
inductive ReadEnd where
  | bytes (numBytes : Nat)
  | tooMany
  | failed (code : Int)

inductive Reading where
  | waiting
  | ended (readEnd : ReadEnd)

/-- Where a call stands that is not done in one step: before an IssueRead or, in Terminate, until the read is over. -/
inductive Call where
  | none
  | initializing (watch : SNativeDirectoryWatch)
  | reissuing (isDirectory : List UInt16 → Bool) (records : List NotifyRecord) (result : SDirectoryChanges)
  | releasing

/-- CDirectoryWatch on Windows, with what the system has of its handles, of its read and of the changes since the last
one. `isFull` once these were too many to keep, `isSound` as long as no handle was misused and no memory that is gone. -/
structure CDirectoryWatch where
  pWatch : Option SNativeDirectoryWatch := none
  call : Call := .none
  isFolderOpen : Bool := false
  isEventOpen : Bool := false
  isSignalled : Bool := false
  isRecording : Bool := false
  reading : Option Reading := none
  queued : List NotifyRecord := []
  isFull : Bool := false
  isSound : Bool := true

/-- How far Initialize comes before its IssueRead. -/
inductive Opening where
  | noFolder (code : Int)
  | noInformation (code : Int)
  | notDirectory
  | noEvent (code : Int)
  | opened

/-- The owner's calls, with what IssueRead gives and the end of Terminate's wait; and the system, in which something
changes, there are too many changes to keep, or the read ends. It is free in what it leaves between the entries. -/
inductive WatchMove where
  | initializeWith (opening : Opening)
  | readChanges (isDirectory : List UInt16 → Bool)
  | issue (error : Option Int)
  | terminate
  | release
  | change (record : NotifyRecord)
  | overflow
  | complete (gaps : List (List UInt8)) (isError : Bool)
  | fail (code : Int)

inductive WatchSeen where
  | nothing
  | initialized
  | failed (error : WatchError)
  | returned (isDirectory : List UInt16 → Bool) (records : List NotifyRecord) (result : Except WatchError SDirectoryChanges)
  | terminated
  | changed (record : NotifyRecord)

namespace CDirectoryWatch

def closeFolder (s : CDirectoryWatch) : CDirectoryWatch :=
  { s with
    isFolderOpen := false, isRecording := false, queued := [], isFull := false
    isSound := s.isSound && s.isFolderOpen && s.reading.isNone }

def closeEvent (s : CDirectoryWatch) : CDirectoryWatch :=
  { s with isEventOpen := false, isSound := s.isSound && s.isEventOpen && s.reading.isNone }

/-- The end of Release. -/
def closeHandles (s : CDirectoryWatch) (watch : SNativeDirectoryWatch) : CDirectoryWatch :=
  let s := if watch.folder then s.closeFolder else s
  if watch.hEvent then s.closeEvent else s

/-- The system takes one read of a folder at a time into a buffer, and the event is reset with it. -/
def issueRead (s : CDirectoryWatch) (watch : SNativeDirectoryWatch) : Option Int → CDirectoryWatch × SNativeDirectoryWatch
  | none =>
    ({ s with
      reading := some .waiting, isRecording := true, isSignalled := false
      isSound := s.isSound && s.isFolderOpen && s.isEventOpen && s.reading.isNone }, { watch with isReadPending := true })
  | some _ => (s, { watch with isReadPending := false })

def initializeWith (s : CDirectoryWatch) : Opening → CDirectoryWatch × WatchSeen
  | .noFolder code => (s.closeHandles {}, .failed (.system code))
  | .noInformation code => (closeHandles { s with isFolderOpen := true } { folder := true }, .failed (.system code))
  | .notDirectory => (closeHandles { s with isFolderOpen := true } { folder := true }, .failed .not_a_directory)
  | .noEvent code => (closeHandles { s with isFolderOpen := true } { folder := true }, .failed (.system code))
  | .opened =>
    let watch := { folder := true, hEvent := true, buffer := List.replicate BufferSize 0 }
    ({ s with isFolderOpen := true, isEventOpen := true, isSignalled := false, call := .initializing watch }, .nothing)

/-- ReadChanges, up to the read that it issues if the last one is over. -/
def readChanges (s : CDirectoryWatch) (watch : SNativeDirectoryWatch) (isDirectory : List UInt16 → Bool) :
    CDirectoryWatch × WatchSeen :=
  let consumed := { s with reading := none, pWatch := some { watch with isReadPending := false } }
  if watch.isReadPending = false then (s, .returned isDirectory [] (.error .operation_canceled))
  else
    match s.reading with
    | none => ({ s with isSound := false }, .nothing)
    | some .waiting => (s, .returned isDirectory [] (.ok {}))
    | some (.ended (.bytes 0)) => ({ consumed with call := .reissuing isDirectory [] { hasOverflowed := true } }, .nothing)
    | some (.ended (.bytes (_ + 1))) =>
      match readEntries watch.buffer watch.buffer.length 0 with
      | none => ({ consumed with isSound := false }, .nothing)
      | some records =>
        ({ consumed with call := .reissuing isDirectory records { paths := reportedPaths isDirectory records } }, .nothing)
    | some (.ended .tooMany) => ({ consumed with call := .reissuing isDirectory [] { hasOverflowed := true } }, .nothing)
    | some (.ended (.failed code)) => (consumed, .returned isDirectory [] (.error (.system code)))

/-- The end of a call that issues a read. -/
def issue (s : CDirectoryWatch) (error : Option Int) : Option (CDirectoryWatch × WatchSeen) :=
  match s.call, s.pWatch with
  | .initializing watch, _ =>
    let issued := s.issueRead watch error
    match error with
    | none => some ({ issued.1 with call := .none, pWatch := some issued.2 }, .initialized)
    | some code => some ({ issued.1.closeHandles issued.2 with call := .none }, .failed (.system code))
  | .reissuing isDirectory records result, some watch =>
    let issued := s.issueRead watch error
    let told := match error with
      | none => .ok result
      | some code => .error (.system code)
    some ({ issued.1 with call := .none, pWatch := some issued.2 }, .returned isDirectory records told)
  | _, _ => none

/-- Terminate, which cancels a read that is pending and waits for its end before anything goes. -/
def terminate (s : CDirectoryWatch) (watch : SNativeDirectoryWatch) : CDirectoryWatch × WatchSeen :=
  if watch.isReadPending then ({ s with call := .releasing }, .nothing)
  else ({ s.closeHandles watch with pWatch := none }, .terminated)

def release (s : CDirectoryWatch) (watch : SNativeDirectoryWatch) : CDirectoryWatch × WatchSeen :=
  ({ closeHandles { s with reading := none } watch with pWatch := none, call := .none }, .terminated)

/-- The system ends the read, which it does in memory that has to be there. -/
def endRead (s : CDirectoryWatch) (readEnd : ReadEnd) (bytes : List UInt8) : CDirectoryWatch :=
  let ended := { s with reading := some (.ended readEnd), isSignalled := true }
  match s.pWatch with
  | some watch => { ended with pWatch := some { watch with buffer := bytes ++ watch.buffer.drop bytes.length } }
  | none => { ended with isSound := false }

def complete (s : CDirectoryWatch) (gaps : List (List UInt8)) (isError : Bool) : Option CDirectoryWatch :=
  let bytes := encode (s.queued.zip gaps)
  if s.isFull then
    some { s.endRead (if isError then .tooMany else .bytes 0) [] with isFull := false }
  else if s.queued ≠ [] ∧ gaps.length = s.queued.length ∧ bytes.length ≤ BufferSize then
    some { s.endRead (.bytes bytes.length) bytes with queued := [] }
  else none

/-- Initialize, ReadChanges and Terminate are one after the other, the first two as their assertions ask. -/
def step (s : CDirectoryWatch) : WatchMove → Option (CDirectoryWatch × WatchSeen)
  | .initializeWith opening =>
    match s.call, s.pWatch with
    | .none, none => some (s.initializeWith opening)
    | _, _ => none
  | .readChanges isDirectory =>
    match s.call, s.pWatch with
    | .none, some watch => some (s.readChanges watch isDirectory)
    | _, _ => none
  | .issue error => s.issue error
  | .terminate =>
    match s.call, s.pWatch with
    | .none, some watch => some (s.terminate watch)
    | .none, none => some (s, .nothing)
    | _, _ => none
  | .release =>
    match s.call, s.pWatch, s.reading with
    | .releasing, some watch, some (.ended _) => some (s.release watch)
    | _, _, _ => none
  | .change record =>
    if s.isRecording then
      some ({ s with queued := if s.isFull then [] else s.queued ++ [record] }, .changed record)
    else none
  | .overflow => if s.isRecording then some ({ s with queued := [], isFull := true }, .nothing) else none
  | .complete gaps isError =>
    match s.reading with
    | some .waiting => (s.complete gaps isError).map fun t => (t, .nothing)
    | _ => none
  | .fail code =>
    match s.reading with
    | some .waiting => some (s.endRead (.failed code) [], .nothing)
    | _ => none

def init : CDirectoryWatch := {}

end CDirectoryWatch

def watchMachine : Machine CDirectoryWatch WatchMove WatchSeen := ⟨CDirectoryWatch.step⟩

namespace CDirectoryWatch
variable {s t : CDirectoryWatch} {watch : SNativeDirectoryWatch} {out : WatchSeen} {readEnd : ReadEnd}

/-- The watch's memory and its handles are there. -/
def Held (s : CDirectoryWatch) (watch : SNativeDirectoryWatch) : Prop :=
  watch.folder = true ∧ watch.hEvent = true ∧ s.isFolderOpen = true ∧ s.isEventOpen = true

/-- What the buffer holds after a read that gave something. -/
def Filled (watch : SNativeDirectoryWatch) : Reading → Prop
  | .ended (.bytes (_ + 1)) => ∃ records, readEntries watch.buffer watch.buffer.length 0 = some records
  | _ => True

/-- Where a call stands tells what there is: nothing without a watch, and a read only while it is counted as pending. -/
def Placed (s : CDirectoryWatch) : Prop :=
  match s.call, s.pWatch with
  | .none, none => s.isFolderOpen = false ∧ s.isEventOpen = false ∧ s.reading = none
  | .none, some watch => s.Held watch ∧ watch.isReadPending = s.reading.isSome
  | .initializing watch, none => s.Held watch ∧ s.reading = none ∧ s.isRecording = false
  | .reissuing isDirectory records result, some watch =>
    s.Held watch ∧ watch.isReadPending = false ∧ s.reading = none ∧ result.paths = reportedPaths isDirectory records
  | .releasing, some watch => s.Held watch ∧ watch.isReadPending = true ∧ s.reading.isSome = true
  | _, _ => False

structure Sound (s : CDirectoryWatch) : Prop where
  sound : s.isSound = true
  placed : s.Placed
  signalled : ∀ readEnd, s.reading = some (.ended readEnd) → s.isSignalled = true
  filled : ∀ watch reading, s.pWatch = some watch → s.reading = some reading → Filled watch reading
  recording : s.isRecording = true → s.isFolderOpen = true
  quiet : s.isRecording = false → s.queued = []

theorem placed_of_none (hcall : s.call = .none) (hwatch : s.pWatch = none) (h : s.Placed) :
    s.isFolderOpen = false ∧ s.isEventOpen = false ∧ s.reading = none := by
  simpa only [Placed, hcall, hwatch] using h

theorem placed_of_some (hcall : s.call = .none) (hwatch : s.pWatch = some watch) (h : s.Placed) :
    s.Held watch ∧ watch.isReadPending = s.reading.isSome := by
  simpa only [Placed, hcall, hwatch] using h

/-- With both handles and no read, everything is closed. -/
theorem closeHandles_held (hheld : s.Held watch) (hsound : s.isSound = true) (hreading : s.reading = none) :
    s.closeHandles watch = { s with
      isFolderOpen := false, isEventOpen := false, isRecording := false, queued := [], isFull := false } := by
  obtain ⟨hfolder, hevent, hopenFolder, hopenEvent⟩ := hheld
  simp [closeHandles, closeFolder, closeEvent, hfolder, hevent, hopenFolder, hopenEvent, hsound, hreading]

theorem Sound.initializeWith (h : Sound s) (hcall : s.call = .none) (hwatch : s.pWatch = none) (opening : Opening) :
    Sound (s.initializeWith opening).1 := by
  obtain ⟨hfolder, hevent, hreading⟩ := placed_of_none hcall hwatch h.placed
  cases opening with
  | opened =>
    have hrecording : s.isRecording = false := by
      cases hrecording : s.isRecording with
      | false => rfl
      | true => exact absurd (h.recording hrecording) (Bool.eq_false_iff.mp hfolder)
    refine ⟨h.sound, ?_, ?_, ?_, fun _ => rfl, h.quiet⟩
    · simp [Placed, CDirectoryWatch.initializeWith, hwatch, Held, hreading, hrecording]
    · simp [CDirectoryWatch.initializeWith, hreading]
    · simp [CDirectoryWatch.initializeWith, hreading]
  | noFolder code => exact h
  | _ =>
    refine ⟨?_, ?_, ?_, ?_, ?_, ?_⟩
    all_goals simp [CDirectoryWatch.initializeWith, closeHandles, closeFolder, h.sound, hreading, Placed, hcall, hwatch, hevent]

/-- A read is issued for a watch that is there and has none. -/
theorem Sound.issued (h : Sound s) (hheld : s.Held watch) (hreading : s.reading = none) :
    Sound { (s.issueRead watch none).1 with call := .none, pWatch := some (s.issueRead watch none).2 } := by
  obtain ⟨hfolder, hevent, hopenFolder, hopenEvent⟩ := hheld
  refine ⟨?_, ?_, ?_, ?_, fun _ => hopenFolder, fun h => by cases h⟩
  · simp [issueRead, h.sound, hopenFolder, hopenEvent, hreading]
  · exact ⟨⟨hfolder, hevent, hopenFolder, hopenEvent⟩, rfl⟩
  · simp [issueRead]
  · intro watch' reading' _ hreading'
    obtain rfl := Option.some.inj hreading'
    trivial

theorem Sound.issue (h : Sound s) {error : Option Int} (hst : s.issue error = some (t, out)) : Sound t := by
  have hplaced := h.placed
  unfold CDirectoryWatch.issue at hst
  split at hst
  · rename_i _ watch hcall
    have hwatch : s.pWatch = none := by
      cases hwatch : s.pWatch with
      | none => rfl
      | some other => simp [Placed, hcall, hwatch] at hplaced
    simp only [Placed, hcall, hwatch] at hplaced
    obtain ⟨hheld, hreading, -⟩ := hplaced
    cases error with
    | none =>
      cases hst
      exact h.issued hheld hreading
    | some code =>
      cases hst
      have hclosed : s.closeHandles { watch with isReadPending := false } = _ :=
        closeHandles_held hheld h.sound hreading
      simp only [issueRead, hclosed]
      refine ⟨h.sound, ?_, ?_, ?_, ?_, ?_⟩
      all_goals simp [Placed, hwatch, hreading]
  · rename_i isDirectory records result watch hcall hwatch
    simp only [Placed, hcall, hwatch] at hplaced
    obtain ⟨hheld, hpending, hreading, -⟩ := hplaced
    cases error with
    | none =>
      cases hst
      exact h.issued hheld hreading
    | some code =>
      cases hst
      refine ⟨h.sound, ⟨hheld, by simp [issueRead, hreading]⟩, ?_, ?_, h.recording, h.quiet⟩
      · simp [issueRead, hreading]
      · simp [issueRead, hreading]
  · cases hst

theorem Sound.readChanges (h : Sound s) (hcall : s.call = .none) (hwatch : s.pWatch = some watch)
    (isDirectory : List UInt16 → Bool) : Sound (s.readChanges watch isDirectory).1 := by
  obtain ⟨hheld, hpending⟩ := placed_of_some hcall hwatch h.placed
  unfold CDirectoryWatch.readChanges
  dsimp only
  split
  · exact h
  · rename_i hread
    split
    · rename_i hreading
      rw [hreading] at hpending
      exact absurd hpending hread
    · exact h
    · refine ⟨h.sound, ⟨hheld, rfl, rfl, rfl⟩, by simp, by simp, h.recording, h.quiet⟩
    · rename_i hreading
      obtain ⟨records, hrecords⟩ := h.filled watch _ hwatch hreading
      rw [hrecords]
      exact ⟨h.sound, ⟨hheld, rfl, rfl, rfl⟩, by simp, by simp, h.recording, h.quiet⟩
    · exact ⟨h.sound, ⟨hheld, rfl, rfl, rfl⟩, by simp, by simp, h.recording, h.quiet⟩
    · refine ⟨h.sound, ?_, by simp, by simp, h.recording, h.quiet⟩
      simp only [Placed, hcall]
      exact ⟨hheld, rfl⟩

theorem Sound.terminate (h : Sound s) (hcall : s.call = .none) (hwatch : s.pWatch = some watch) :
    Sound (s.terminate watch).1 := by
  obtain ⟨hheld, hpending⟩ := placed_of_some hcall hwatch h.placed
  unfold CDirectoryWatch.terminate
  split
  · rename_i hread
    refine ⟨h.sound, ?_, h.signalled, h.filled, h.recording, h.quiet⟩
    simp only [Placed, hwatch]
    exact ⟨hheld, hread, hpending ▸ hread⟩
  · rename_i hread
    have hreading : s.reading = none := by
      rw [hpending] at hread
      simpa using hread
    rw [closeHandles_held hheld h.sound hreading]
    refine ⟨h.sound, ?_, ?_, ?_, ?_, ?_⟩
    all_goals simp [Placed, hcall, hreading]

theorem Sound.release (h : Sound s) (hcall : s.call = .releasing) (hwatch : s.pWatch = some watch) :
    Sound (s.release watch).1 := by
  have hplaced := h.placed
  simp only [Placed, hcall, hwatch] at hplaced
  have hclosed : closeHandles { s with reading := none } watch = _ := closeHandles_held hplaced.1 h.sound rfl
  simp only [CDirectoryWatch.release, hclosed]
  exact ⟨h.sound, ⟨rfl, rfl, rfl⟩, by simp, by simp, by simp, by simp⟩

/-- A read that the system ends was one for a watch that is there. -/
theorem Sound.reading_watch (h : Sound s) (hreading : s.reading = some .waiting) :
    ∃ watch, s.pWatch = some watch ∧ s.Held watch ∧ watch.isReadPending = true ∧ (s.call = .none ∨ s.call = .releasing) := by
  have hplaced := h.placed
  unfold Placed at hplaced
  split at hplaced
  · rw [hplaced.2.2] at hreading
    cases hreading
  · rename_i watch hcall hwatch
    rw [hreading] at hplaced
    exact ⟨watch, hwatch, hplaced.1, hplaced.2, .inl hcall⟩
  · rw [hplaced.2.1] at hreading
    cases hreading
  · rw [hplaced.2.2.1] at hreading
    cases hreading
  · rename_i watch hcall hwatch
    exact ⟨watch, hwatch, hplaced.1, hplaced.2.1, .inr hcall⟩
  · exact hplaced.elim

theorem Sound.endRead (h : Sound s) (hreading : s.reading = some .waiting) (bytes : List UInt8)
    (hfilled : ∀ back, Filled { buffer := bytes ++ back } (.ended readEnd)) : Sound (s.endRead readEnd bytes) := by
  obtain ⟨watch, hwatch, hheld, hpending, hcall⟩ := h.reading_watch hreading
  simp only [CDirectoryWatch.endRead, hwatch]
  refine ⟨h.sound, ?_, fun _ _ => rfl, ?_, h.recording, h.quiet⟩
  · rcases hcall with hcall | hcall
    · simp only [Placed, hcall]
      exact ⟨hheld, hpending⟩
    · simp only [Placed, hcall]
      exact ⟨hheld, hpending, rfl⟩
  · intro watch' reading' hwatch' hreading'
    obtain rfl := Option.some.inj hwatch'
    obtain rfl := Option.some.inj hreading'
    exact hfilled _

theorem readEntries_written {records : List NotifyRecord} {gaps : List (List UInt8)} (hsome : records ≠ [])
    (hgaps : gaps.length = records.length) (hfits : (encode (records.zip gaps)).length ≤ BufferSize) (back : List UInt8) :
    readEntries (encode (records.zip gaps) ++ back) (encode (records.zip gaps) ++ back).length 0 = some records := by
  have hrecords : (records.zip gaps).map Prod.fst = records := List.map_fst_zip (Nat.le_of_eq hgaps.symm)
  obtain ⟨record, records, rfl⟩ := List.exists_cons_of_ne_nil hsome
  obtain ⟨gap, gaps, rfl⟩ := List.exists_cons_of_length_eq_add_one hgaps
  have hlength := length_entries_le ((record, gap) :: records.zip gaps)
  have hrounds : (records.zip gaps).length < (encode ((record, gap) :: records.zip gaps) ++ back).length := by
    rw [List.length_append]
    exact Nat.lt_of_lt_of_le hlength (Nat.le_add_right ..)
  have hread := readEntries_encode record gap (records.zip gaps)
    (Nat.lt_of_le_of_lt hfits (by decide)) hrounds [] back
  rw [List.zip_cons_cons] at hrecords ⊢
  exact hread.trans (congrArg some hrecords)

theorem Sound.complete (h : Sound s) (hreading : s.reading = some .waiting) {gaps : List (List UInt8)} {isError : Bool}
    (hst : s.complete gaps isError = some t) : Sound t := by
  unfold CDirectoryWatch.complete at hst
  dsimp only at hst
  split at hst
  · obtain rfl := Option.some.inj hst
    have hended : Sound (s.endRead (if isError then .tooMany else .bytes 0) []) := h.endRead hreading [] ?_
    · exact ⟨hended.sound, hended.placed, hended.signalled, hended.filled, hended.recording, hended.quiet⟩
    · cases isError <;> exact fun _ => trivial
  · split at hst
    · rename_i hfits
      obtain rfl := Option.some.inj hst
      have hended : Sound (s.endRead (.bytes (encode (s.queued.zip gaps)).length) (encode (s.queued.zip gaps))) :=
        h.endRead hreading _ ?_
      · exact ⟨hended.sound, hended.placed, hended.signalled, hended.filled, hended.recording, fun _ => rfl⟩
      · intro back
        have hread := readEntries_written hfits.1 hfits.2.1 hfits.2.2 back
        unfold Filled
        split
        · exact ⟨s.queued, hread⟩
        · trivial
    · cases hst

theorem Sound.step (h : Sound s) {m : WatchMove} (hst : s.step m = some (t, out)) : Sound t := by
  cases m with
  | initializeWith opening =>
    simp only [CDirectoryWatch.step] at hst
    split at hst
    · rename_i hcall hwatch
      have hnext := h.initializeWith hcall hwatch opening
      rw [Option.some.inj hst] at hnext
      exact hnext
    · cases hst
  | readChanges isDirectory =>
    simp only [CDirectoryWatch.step] at hst
    split at hst
    · rename_i watch hcall hwatch
      have hnext := h.readChanges hcall hwatch isDirectory
      rw [Option.some.inj hst] at hnext
      exact hnext
    · cases hst
  | issue error => exact h.issue hst
  | terminate =>
    simp only [CDirectoryWatch.step] at hst
    split at hst
    · rename_i watch hcall hwatch
      have hnext := h.terminate hcall hwatch
      rw [Option.some.inj hst] at hnext
      exact hnext
    · cases hst
      exact h
    · cases hst
  | release =>
    simp only [CDirectoryWatch.step] at hst
    split at hst
    · rename_i watch _ hcall hwatch hreading
      have hnext := h.release hcall hwatch
      rw [Option.some.inj hst] at hnext
      exact hnext
    · cases hst
  | change record =>
    simp only [CDirectoryWatch.step] at hst
    split at hst
    · rename_i hrecording
      cases hst
      have hnot (hquiet : s.isRecording = false) : False := Bool.eq_false_iff.mp hquiet hrecording
      exact ⟨h.sound, h.placed, h.signalled, h.filled, h.recording, fun hquiet => (hnot hquiet).elim⟩
    · cases hst
  | overflow =>
    simp only [CDirectoryWatch.step] at hst
    split at hst
    · cases hst
      exact ⟨h.sound, h.placed, h.signalled, h.filled, h.recording, fun _ => rfl⟩
    · cases hst
  | complete gaps isError =>
    simp only [CDirectoryWatch.step] at hst
    split at hst
    · rename_i hreading
      obtain ⟨t', hcomplete, hst⟩ := Option.map_eq_some_iff.mp hst
      cases hst
      exact h.complete hreading hcomplete
    · cases hst
  | fail code =>
    simp only [CDirectoryWatch.step] at hst
    split at hst
    · rename_i hreading
      cases hst
      exact h.endRead hreading [] fun _ => trivial
    · cases hst

theorem sound_run {ms : List WatchMove} {seen : List WatchSeen} (hr : watchMachine.run init ms = some (s, seen)) :
    Sound s := by
  apply Machine.run_keeps (M := watchMachine) Sound _ _ hr
  · exact fun _ _ _ _ h hst => h.step hst
  · exact ⟨rfl, ⟨rfl, rfl, rfl⟩, by simp [init], by simp [init], by simp [init], by simp [init]⟩

/-- No handle is misused and the system never writes into memory that is gone; and where there is no watch, nothing of
one is left. -/
theorem watch_keeps_memory {ms : List WatchMove} {seen : List WatchSeen}
    (hr : watchMachine.run init ms = some (s, seen)) :
    s.isSound = true ∧ (s.call = .none → s.pWatch = none →
      s.isFolderOpen = false ∧ s.isEventOpen = false ∧ s.reading = none) :=
  ⟨(sound_run hr).sound, fun hcall hwatch => placed_of_none hcall hwatch (sound_run hr).placed⟩

/-- A watch is ended while its read is pending, and the system still writes into its buffer. -/
theorem watch_keeps_memory_late : ∃ s seen, watchMachine.run init
    [.initializeWith .opened, .issue none, .change ⟨1, [0x61]⟩, .terminate, .complete [[]] false, .release] =
      some (s, seen) ∧ s.isSound = true ∧ s.isFolderOpen = false := by
  refine ⟨_, _, rfl, ?_, rfl⟩
  exact (@watch_keeps_memory _
    [.initializeWith .opened, .issue none, .change ⟨1, [0x61]⟩, .terminate, .complete [[]] false, .release] _ rfl).1

end CDirectoryWatch

end TgeCore.IO.Windows
