import TgeCore.IO.WriteFileAtomically

namespace TgeCore.IO
open Library

/-- The temporary file that a call has open. -/
def Stage.opened : Stage → Option Opened
  | .stat opened => some opened
  | .fchmod opened _ => some opened
  | .write opened _ => some opened
  | .fsync opened => some opened
  | .close opened _ => some opened
  | .rename opened => some opened
  | .remove opened _ => some opened
  | .mkostemp => none
  | .done _ => none
  | .lost => none

/-- What the temporary file holds, where that still matters. -/
def Stage.written (content : List UInt8) : Stage → Option (List UInt8)
  | .stat _ => some []
  | .fchmod _ _ => some []
  | .write _ numWritten => some (content.take numWritten)
  | .fsync _ => some content
  | .close _ none => some content
  | .rename _ => some content
  | _ => none

/-- The temporary file is on the disk. -/
def Stage.synced : Stage → Bool
  | .close _ none => true
  | .rename _ => true
  | _ => false

variable {c : Call} {disk disk' : Files} {stage : Stage} {outcome : Outcome}

/-- A step that no reader can tell from nothing. -/
structure Quiet (c : Call) (disk disk' : Files) (stage : Stage) : Prop where
  entries : disk'.entries = disk.entries
  past : disk'.past = disk.past
  length : disk'.inodes.length = disk.inodes.length
  content : ∀ id, disk'.content id = disk.content id
  unsynced : ∀ id ∈ disk'.unsynced, id ∈ disk.unsynced
  opened : ∀ o, stage.opened = some o → c.stage.opened = some o
  written : ∀ w, stage.written c.content = some w → c.stage.written c.content = some w
  synced : ∀ o, stage.opened = some o → stage.synced → c.stage.synced ∨ o.file ∉ disk'.unsynced
  goesOn : stage ≠ .done none

/-- All that a step of a call can do. -/
inductive Change (c : Call) (disk : Files) : Files → Stage → Prop where
  | quiet {disk' : Files} {stage : Stage} (h : Quiet c disk disk' stage) : Change c disk disk' stage
  | create (letters : String) (hstage : c.stage = .mkostemp) (hlength : letters.length = 6)
      (habsent : disk.entries (temporaryPath c.target letters) = none) :
      Change c disk (disk.create (temporaryPath c.target letters) temporaryMode)
        (.stat ⟨temporaryPath c.target letters, disk.inodes.length⟩)
  | append (opened : Opened) (numWritten count : Nat) (hstage : c.stage = .write opened numWritten)
      (hcount : numWritten + count ≤ c.content.length) :
      Change c disk (disk.append opened.file ((c.content.drop numWritten).take count)) (c.writeAll opened (numWritten + count))
  | rename (opened : Opened) (hstage : c.stage = .rename opened) :
      Change c disk (disk.rename opened.temporaryPath c.target) (.done none)
  | unlink (opened : Opened) (error : ErrorCode) (hstage : c.stage = .remove opened error) :
      Change c disk (disk.unlink opened.temporaryPath) (.done (some error))

theorem Quiet.same (hopened : ∀ o, stage.opened = some o → c.stage.opened = some o)
    (hwritten : ∀ w, stage.written c.content = some w → c.stage.written c.content = some w)
    (hsynced : stage.synced → c.stage.synced) (hgoesOn : stage ≠ .done none) : Quiet c disk disk stage :=
  ⟨rfl, rfl, rfl, fun _ => rfl, fun _ hid => hid, hopened, hwritten, fun _ _ hs => .inl (hsynced hs), hgoesOn⟩

/-- Steps into an error keep nothing but the temporary file. -/
theorem Quiet.failed (hopened : ∀ o, stage.opened = some o → c.stage.opened = some o)
    (hwritten : stage.written c.content = none) (hsynced : stage.synced = false) (hgoesOn : stage ≠ .done none) :
    Quiet c disk disk stage := by
  refine .same hopened (fun w hw => ?_) (fun hs => ?_) hgoesOn
  · rw [hwritten] at hw
    cases hw
  · rw [hsynced] at hs
    cases hs

theorem writeAll_opened (c : Call) (o : Opened) (n : Nat) : (c.writeAll o n).opened = some o := by
  unfold Call.writeAll
  split
  · rfl
  · rfl

theorem writeAll_synced (c : Call) (o : Opened) (n : Nat) : (c.writeAll o n).synced = false := by
  unfold Call.writeAll
  split
  · rfl
  · rfl

/-- When the loop ends, all is written. -/
theorem writeAll_written (c : Call) (o : Opened) (n : Nat) : (c.writeAll o n).written c.content = some (c.content.take n) := by
  unfold Call.writeAll
  split
  · rfl
  · rename_i hend
    have hall : c.content.take n = c.content := List.take_of_length_le (Nat.le_of_not_lt hend)
    rw [hall]
    rfl

theorem Quiet.fails {o : Opened} {error : ErrorCode} (hopened : c.stage.opened = some o) :
    Quiet c disk disk (.close o (some error)) := by
  refine .failed (fun o' ho' => ?_) rfl rfl ?_
  · rw [hopened]
    exact ho'
  · simp

theorem Quiet.removes {o : Opened} {error : ErrorCode} (hopened : c.stage.opened = some o) :
    Quiet c disk disk (.remove o error) := by
  refine .failed (fun o' ho' => ?_) rfl rfl ?_
  · rw [hopened]
    exact ho'
  · simp

theorem Quiet.ends {error : ErrorCode} : Quiet c disk disk (.done (some error)) := by
  refine .failed (fun o ho => ?_) rfl rfl ?_
  · cases ho
  · simp

theorem Quiet.fchmod {o : Opened} {mode : UInt32} (hstage : c.stage = .fchmod o mode) :
    Quiet c disk (disk.chmod o.file mode) (c.writeAll o 0) := by
  refine ⟨rfl, rfl, List.length_modify .., disk.content_chmod o.file mode, fun id hid => hid, fun o' ho' => ?_,
    fun w hw => ?_, fun o' ho' hs => ?_, ?_⟩
  · rw [writeAll_opened] at ho'
    rw [hstage]
    exact ho'
  · rw [writeAll_written] at hw
    rw [hstage]
    exact hw
  · rw [writeAll_synced] at hs
    cases hs
  · unfold Call.writeAll
    split
    · simp
    · simp

theorem Quiet.fsync {o : Opened} (hstage : c.stage = .fsync o) : Quiet c disk (disk.sync o.file) (.close o none) := by
  refine ⟨rfl, rfl, rfl, fun id => rfl, fun id hid => (List.mem_filter.mp hid).1, fun o' ho' => ?_, fun w hw => ?_,
    fun o' ho' hs => .inr fun hmem => ?_, ?_⟩
  · rw [hstage]
    exact ho'
  · rw [hstage]
    exact hw
  · cases ho'
    simp [Disk.sync] at hmem
  · simp

theorem Call.step_change (h : c.step disk outcome = some (disk', stage)) : Change c disk disk' stage := by
  unfold Call.step at h
  split at h
  · rename_i letters hstage
    split at h
    · rename_i hname
      cases h
      exact .create letters hstage hname.1 hname.2
    · cases h
  · cases h
    exact .quiet .ends
  · rename_i opened isFound hstage
    obtain ⟨mode, -, heq⟩ := Option.map_eq_some_iff.mp h
    cases heq
    refine .quiet (.same (fun o ho => ?_) (fun w hw => ?_) (fun hs => ?_) ?_)
    · rw [hstage]
      exact ho
    · rw [hstage]
      exact hw
    · cases hs
    · simp
  · rename_i opened mode hstage
    cases h
    exact .quiet (.fchmod hstage)
  · rename_i opened mode errno hstage
    cases h
    exact .quiet (.fails (by rw [hstage]; rfl))
  · rename_i opened numWritten count hstage
    split at h
    · rename_i hcount
      split at h
      · rename_i hpos
        cases h
        refine .append opened numWritten count hstage ?_
        omega
      · cases h
        exact .quiet (.fails (by rw [hstage]; rfl))
    · cases h
  · rename_i opened numWritten errno hstage
    cases h
    split
    · exact .quiet (.fails (by rw [hstage]; rfl))
    · rw [← hstage]
      refine .quiet (.same (fun o ho => ho) (fun w hw => hw) (fun hs => hs) ?_)
      rw [hstage]
      simp
  · rename_i opened hstage
    cases h
    exact .quiet (.fsync hstage)
  · rename_i opened errno hstage
    cases h
    exact .quiet (.fails (by rw [hstage]; rfl))
  · rename_i opened error failed hstage
    cases h
    exact .quiet (.removes (by rw [hstage]; rfl))
  · rename_i opened errno hstage
    cases h
    exact .quiet (.removes (by rw [hstage]; rfl))
  · rename_i opened hstage
    cases h
    refine .quiet (.same (fun o ho => ?_) (fun w hw => ?_) (fun hs => ?_) ?_)
    · rw [hstage]
      exact ho
    · rw [hstage]
      exact hw
    · rw [hstage]
      rfl
    · simp
  · rename_i opened hstage
    cases h
    exact .rename opened hstage
  · rename_i opened errno hstage
    cases h
    exact .quiet (.removes (by rw [hstage]; rfl))
  · rename_i opened error isRemoved hstage
    cases h
    cases isRemoved with
    | true => exact .unlink opened error hstage
    | false => exact .quiet .ends
  · cases h

end TgeCore.IO
