import TgeCore.IO.AtomicWrite
import TgeCore.IO.WindowsWrite

namespace TgeCore.IO.OnWindows
open Library

/-- The files, with permissions on them that nothing looks at. -/
def asFiles (disk : WindowsFiles) : Files where
  entries := disk.entries
  inodes := disk.inodes.map fun inode => ⟨inode.content, temporaryMode⟩
  unsynced := disk.unsynced
  past := disk.past

section Disks
variable (disk : WindowsFiles) (name new : Path) (id : Nat) (bytes : List UInt8)

theorem asFiles_length : (asFiles disk).inodes.length = disk.inodes.length := List.length_map ..

theorem asFiles_content : (asFiles disk).content id = disk.content id := by
  unfold Disk.content asFiles
  rw [List.getElem?_map, Option.map_map]
  rfl

theorem asFiles_read : (asFiles disk).read name = disk.read name := by
  unfold Disk.read
  rw [funext (asFiles_content disk)]
  rfl

theorem asFiles_create : asFiles (disk.create name ()) = (asFiles disk).create name temporaryMode := by
  unfold asFiles Disk.create Disk.setEntries
  simp only [List.map_append, List.map_cons, List.map_nil, List.length_map]

theorem asFiles_append : asFiles (disk.append id bytes) = (asFiles disk).append id bytes := by
  unfold asFiles Disk.append
  dsimp only
  congr 1
  apply List.ext_getElem?
  intro i
  rw [List.getElem?_map, List.getElem?_modify, List.getElem?_modify, List.getElem?_map]
  cases disk.inodes[i]? with
  | none => rfl
  | some inode =>
    simp only [Option.map_eq_map, Option.map_some]
    split
    · rfl
    · rfl

theorem asFiles_powerLoss {disk' : WindowsFiles} {torn : Nat → List UInt8} {back : Nat}
    (h : disk.powerLoss torn back = some disk') : (asFiles disk).powerLoss torn back = some (asFiles disk') := by
  obtain ⟨entries, hentries, rfl⟩ := Option.map_eq_some_iff.mp h
  refine Option.map_eq_some_iff.mpr ⟨entries, hentries, ?_⟩
  unfold asFiles
  congr 1
  apply List.ext_getElem?
  intro i
  rw [List.getElem?_mapIdx, List.getElem?_map, List.getElem?_map, List.getElem?_mapIdx]
  cases disk.inodes[i]? with
  | none => rfl
  | some inode =>
    simp only [Option.map_some]
    split
    · rfl
    · rfl

end Disks

/-- A call on Windows is at a place that a call on Linux also comes to: the tries for a name are the one mkostemp, and
what comes after the rename, or after an error, is the return or the removal. -/
def WriteStage.asStage : WriteStage → Stage
  | .create _ => .mkostemp
  | .write opened numWritten => .write opened numWritten
  | .flush opened => .fsync opened
  | .rename opened _ => .rename opened
  | .delete opened error _ => .remove opened error
  | .close _ none => .done none
  | .close opened (some (error, _)) => .remove opened error
  | .done error => .done error
  | .lost true => .done none
  | .lost false => .lost

def WriteCall.asCall (c : WriteCall) : Call := { target := c.target, content := c.content, stage := c.stage.asStage }

def WindowsWriters.asWriters (s : WindowsWriters) : Writers where
  disk := asFiles s.disk
  calls := s.calls.map WriteCall.asCall

theorem asStage_placed (stage : WriteStage) : stage.isPlaced = true ↔ stage.asStage = .done none := by
  cases stage with
  | close opened failed =>
    cases failed with
    | none => exact iff_of_true rfl rfl
    | some failed => exact iff_of_false (fun h => by cases h) fun h => by cases h
  | done error =>
    cases error with
    | none => exact iff_of_true rfl rfl
    | some error => exact iff_of_false (fun h => by cases h) fun h => by cases h
  | lost isPlaced =>
    cases isPlaced with
    | true => exact iff_of_true rfl rfl
    | false => exact iff_of_false (fun h => by cases h) fun h => by cases h
  | _ => exact iff_of_false (fun h => by cases h) fun h => by cases h

theorem asStage_writeAll (c : WriteCall) (opened : Opened) (numWritten : Nat) :
    (c.writeAll opened numWritten).asStage = c.asCall.writeAll opened numWritten := by
  unfold WriteCall.writeAll Call.writeAll WriteCall.asCall
  dsimp only
  split
  · rfl
  · rfl

theorem asStage_cut (stage : WriteStage) : stage.cut.asStage = stage.asStage.cut := by
  cases stage with
  | close opened failed =>
    cases failed with
    | none => rfl
    | some failed => rfl
  | lost isPlaced =>
    cases isPlaced with
    | true => rfl
    | false => rfl
  | _ => rfl

/-- What a step on Windows is on Linux: nothing, one step or two. -/
inductive Leads (c : Call) (disk : Files) : Files → Stage → Prop
  | stays : Leads c disk disk c.stage
  | once {disk' : Files} {stage : Stage} (hgoesOn : c.stage ≠ .done none) (h : Change c disk disk' stage) :
    Leads c disk disk' stage
  | twice {disk' disk'' : Files} {stage stage' : Stage} (hgoesOn : c.stage ≠ .done none)
    (h : Change c disk disk' stage) (hgoesOn' : stage ≠ .done none)
    (h' : Change { c with stage } disk' disk'' stage') : Leads c disk disk'' stage'

variable {c : WriteCall} {disk disk' : WindowsFiles} {stage : WriteStage} {outcome : WriteOutcome}

theorem leads_removes {opened : Opened} {error : ErrorCode} (hgoesOn : c.asCall.stage ≠ .done none)
    (hopened : c.asCall.stage.opened = some opened) :
    Leads c.asCall (asFiles disk) (asFiles disk) (.remove opened error) :=
  .once hgoesOn (.quiet (.removes hopened))

theorem leads_stays {stage : Stage} (h : c.asCall.stage = stage) :
    Leads c.asCall (asFiles disk) (asFiles disk) stage := by
  rw [← h]
  exact .stays

/-- The file that is there once the name is taken is written from its start. -/
theorem quiet_created {c : Call} {disk : Files} {opened : Opened} (hstage : c.stage = .stat opened) :
    Quiet c disk disk (c.writeAll opened 0) := by
  refine .same (fun o ho => ?_) (fun w hw => ?_) (fun hs => ?_) (fun heq => ?_)
  · rw [writeAll_opened] at ho
    rw [hstage]
    exact ho
  · rw [writeAll_written] at hw
    rw [hstage]
    exact hw
  · rw [writeAll_synced] at hs
    cases hs
  · have hopened := writeAll_opened c opened 0
    rw [heq] at hopened
    cases hopened

theorem quiet_synced {c : Call} {disk : Files} {opened : Opened} (hstage : c.stage = .close opened none) :
    Quiet c disk disk (.rename opened) := by
  refine .same (fun o ho => ?_) (fun w hw => ?_) (fun _ => ?_) (fun heq => by cases heq)
  · rw [hstage]
    exact ho
  · rw [hstage]
    exact hw
  · rw [hstage]
    rfl

/-- A step on Windows is one that callers on Linux can make. -/
theorem WriteCall.step_leads (h : c.step disk outcome = some (disk', stage)) :
    Leads c.asCall (asFiles disk) (asFiles disk') stage.asStage := by
  unfold WriteCall.step at h
  split at h
  · rename_i numTries letters hstage
    have hat : c.asCall.stage = .mkostemp := congrArg WriteStage.asStage hstage
    dsimp only at h
    split at h
    · rename_i hname
      obtain ⟨hlength, -, habsent⟩ := hname
      cases h
      rw [asFiles_create, asStage_writeAll]
      have hcreate := @Change.create c.asCall (asFiles disk) letters hat hlength habsent
      rw [asFiles_length] at hcreate
      exact .twice (by simp [hat]) hcreate (by simp) (.quiet (quiet_created rfl))
    · cases h
  · rename_i numTries letters error hstage
    have hat : c.asCall.stage = .mkostemp := congrArg WriteStage.asStage hstage
    cases h
    split
    · exact leads_stays hat
    · exact .once (by simp [hat]) (.quiet .ends)
  · rename_i opened numWritten count hstage
    have hat : c.asCall.stage = .write opened numWritten := congrArg WriteStage.asStage hstage
    split at h
    · rename_i hcount
      split at h
      · cases h
        exact leads_removes (by simp [hat]) (by rw [hat]; rfl)
      · rename_i hpos
        cases h
        rw [asFiles_append, asStage_writeAll]
        refine .once (by simp [hat]) (.append opened numWritten count hat ?_)
        have hlength : c.asCall.content.length = c.content.length := rfl
        omega
    · cases h
  · rename_i opened numWritten error hstage
    have hat : c.asCall.stage = .write opened numWritten := congrArg WriteStage.asStage hstage
    cases h
    exact leads_removes (by simp [hat]) (by rw [hat]; rfl)
  · rename_i opened hstage
    have hat : c.asCall.stage = .fsync opened := congrArg WriteStage.asStage hstage
    cases h
    exact .twice (by simp [hat]) (.quiet (.fsync hat)) (by simp) (.quiet (quiet_synced rfl))
  · rename_i opened error hstage
    have hat : c.asCall.stage = .fsync opened := congrArg WriteStage.asStage hstage
    cases h
    exact leads_removes (by simp [hat]) (by rw [hat]; rfl)
  · rename_i opened isEx hstage
    have hat : c.asCall.stage = .rename opened := congrArg WriteStage.asStage hstage
    cases h
    exact .once (by simp [hat]) (.rename opened hat)
  · rename_i opened isEx error hstage
    have hat : c.asCall.stage = .rename opened := congrArg WriteStage.asStage hstage
    cases h
    split
    · exact leads_stays hat
    · exact leads_removes (by simp [hat]) (by rw [hat]; rfl)
  · rename_i opened error isEx isSet hstage
    have hat : c.asCall.stage = .remove opened error := congrArg WriteStage.asStage hstage
    cases h
    split
    · exact leads_stays hat
    · split
      · exact leads_stays hat
      · exact leads_stays hat
  · rename_i opened isLast hstage
    have hat : c.asCall.stage = .done none := congrArg WriteStage.asStage hstage
    cases h
    exact leads_stays hat
  · rename_i opened error deletion isLast hstage
    have hat : c.asCall.stage = .remove opened error := congrArg WriteStage.asStage hstage
    cases h
    split
    · exact .once (by simp [hat]) (.unlink opened error hat)
    · exact .once (by simp [hat]) (.quiet .ends)
  · cases h

section Runs
variable {target : Path} {before : Files} {s t : WindowsWriters} {i : Nat}

theorem sound_change {s : Writers} {c : Call} {disk' : Files} {stage : Stage} (h : Sound target before s)
    (hc : s.calls[i]? = some c) (hgoesOn : c.stage ≠ .done none) (hchange : Change c s.disk disk' stage) :
    Sound target before { disk := disk', calls := s.calls.set i { c with stage } } := by
  cases hchange with
  | quiet hquiet => exact h.quiet hc hgoesOn hquiet
  | create letters hstage hlength habsent => exact h.create hc hstage hlength habsent
  | append opened numWritten count hstage hcount => exact h.append hc hstage
  | rename opened hstage => exact (h.rename hc hstage).1
  | unlink opened error hstage => exact h.unlink hc hstage

theorem sound_leads {s : Writers} {c : Call} {disk' : Files} {stage : Stage} (h : Sound target before s)
    (hc : s.calls[i]? = some c) (hleads : Leads c s.disk disk' stage) :
    Sound target before { disk := disk', calls := s.calls.set i { c with stage } } := by
  cases hleads with
  | stays =>
    obtain ⟨hi, rfl⟩ := List.getElem?_eq_some_iff.mp hc
    rw [List.set_getElem_self hi]
    exact h
  | once hgoesOn hchange => exact sound_change h hc hgoesOn hchange
  | twice hgoesOn hchange hgoesOn' hchange' =>
    have hfirst := sound_change h hc hgoesOn hchange
    have hsecond := sound_change hfirst (List.getElem?_set_self (List.getElem?_eq_some_iff.mp hc).1) hgoesOn' hchange'
    rwa [List.set_set] at hsecond

theorem asWriters_act {c : WriteCall} {disk' : WindowsFiles} {stage : WriteStage} :
    WindowsWriters.asWriters { disk := disk', calls := s.calls.set i { c with stage } } =
      { disk := asFiles disk', calls := s.asWriters.calls.set i { c.asCall with stage := stage.asStage } } := by
  unfold WindowsWriters.asWriters
  rw [List.map_set]
  rfl

theorem asWriters_call {c : WriteCall} (hc : s.calls[i]? = some c) : s.asWriters.calls[i]? = some c.asCall := by
  unfold WindowsWriters.asWriters
  rw [List.getElem?_map, hc]
  rfl

theorem act_cases_windows {out : Option (Nat × Option ErrorCode)} (h : s.step (.act i outcome) = some (t, out)) :
    ∃ c disk' stage, s.calls[i]? = some c ∧ c.step s.disk outcome = some (disk', stage) ∧
      t = { disk := disk', calls := s.calls.set i { c with stage } } ∧
        out = stage.result.map fun error => (i, error) := by
  obtain ⟨c, hc, hnext⟩ := Option.bind_eq_some_iff.mp h
  obtain ⟨⟨disk', stage⟩, hcall, heq⟩ := Option.map_eq_some_iff.mp hnext
  cases heq
  exact ⟨c, disk', stage, hc, hcall, rfl, rfl⟩

theorem sound_call (h : Sound target before s.asWriters) (content : List UInt8) (failed : Option Errno) :
    Sound target before
      (WindowsWriters.asWriters { s with calls := s.calls ++ [{ target, content, stage := firstStage failed }] }) := by
  have hcalled := h.call content
  have happend :
      WindowsWriters.asWriters { s with calls := s.calls ++ [{ target, content, stage := firstStage failed }] } =
      { s.asWriters with calls := s.asWriters.calls ++ [⟨target, content, (firstStage failed).asStage⟩] } :=
    congrArg (Writers.mk (asFiles s.disk)) List.map_append
  rw [happend]
  cases failed with
  | none => exact hcalled
  | some error =>
    have hc : (s.asWriters.calls ++ [⟨target, content, .mkostemp⟩])[s.asWriters.calls.length]? =
        some ⟨target, content, .mkostemp⟩ := List.getElem?_concat_length
    have hended := @sound_change _ _ _ _ _ _ (.done (some (.system error))) hcalled hc (by simp) (.quiet .ends)
    rw [List.set_append_right _ _ (Nat.le_refl _), Nat.sub_self] at hended
    exact hended

theorem asWriters_powerLoss {disk' : WindowsFiles} :
    WindowsWriters.asWriters { disk := disk', calls := s.calls.map fun c => { c with stage := c.stage.cut } } =
      { disk := asFiles disk', calls := s.asWriters.calls.map fun c => { c with stage := c.stage.cut } } := by
  unfold WindowsWriters.asWriters
  simp only [List.map_map, Writers.mk.injEq, true_and]
  apply List.map_congr_left
  intro c hc
  simp only [Function.comp_apply, WriteCall.asCall, asStage_cut]

theorem sound_step {event : WriteEvent} {out : Option (Nat × Option ErrorCode)} (h : Sound target before s.asWriters)
    (htarget : ∀ path canonical failed content, event = .call path canonical failed content →
      resolveLink path canonical = target)
    (hstep : s.step event = some (t, out)) : Sound target before t.asWriters := by
  cases event with
  | call path canonical failed content =>
    cases hstep
    rw [htarget path canonical failed content rfl]
    exact sound_call h content failed
  | powerLoss torn back =>
    obtain ⟨disk', hloss, heq⟩ := Option.map_eq_some_iff.mp hstep
    cases heq
    rw [asWriters_powerLoss]
    exact h.powerLoss (asFiles_powerLoss s.disk hloss)
  | act i outcome =>
    obtain ⟨c, disk', stage, hc, hcall, rfl, -⟩ := act_cases_windows hstep
    rw [asWriters_act]
    exact sound_leads h (asWriters_call hc) (WriteCall.step_leads hcall)

/-- A call on Windows that returns an error has removed its temporary file, unless neither form of the deletion was
set, or only the classic one was and others have the file open. -/
theorem WriteCall.step_cleans {error : ErrorCode} {opened : Opened}
    (h : c.step disk outcome = some (disk', .done (some error))) (hopened : c.asCall.stage.opened = some opened) :
    disk'.entries opened.temporaryPath = none ∨ ∃ deletion, c.stage = .close opened (some (error, deletion)) ∧
      (deletion = .none ∨ deletion = .classic ∧ outcome = .close false) := by
  have hgoesOn : ∀ {disk : WindowsFiles} {o : Opened} {n : Nat}, some (disk, c.writeAll o n) ≠
      some (disk', .done (some error)) := by
    intro disk o n heq
    have hstage := congrArg (fun next => next.2.asStage.opened) (Option.some.inj heq)
    simp only [asStage_writeAll, writeAll_opened] at hstage
    cases hstage
  unfold WriteCall.step at h
  split at h
  · dsimp only at h
    split at h
    · exact absurd h hgoesOn
    · cases h
  · rename_i numTries letters error' hstage
    rw [show c.asCall.stage = .mkostemp from congrArg WriteStage.asStage hstage] at hopened
    cases hopened
  · split at h
    · split at h
      · cases h
      · exact absurd h hgoesOn
    · cases h
  · cases h
  · cases h
  · cases h
  · cases h
  · have hstage := congrArg Prod.snd (Option.some.inj h)
    dsimp only at hstage
    split at hstage
    · cases hstage
    · cases hstage
  · have hstage := congrArg Prod.snd (Option.some.inj h)
    dsimp only at hstage
    split at hstage
    · cases hstage
    · split at hstage
      · cases hstage
      · cases hstage
  · cases h
  · rename_i opened' error' deletion isLast hstage
    rw [show c.asCall.stage = .remove opened' error' from congrArg WriteStage.asStage hstage] at hopened
    cases hopened
    cases h
    cases deletion with
    | none => exact .inr ⟨.none, hstage, .inl rfl⟩
    | posix => exact .inl (Function.update_self ..)
    | classic =>
      cases isLast with
      | true => exact .inl (Function.update_self ..)
      | false => exact .inr ⟨.classic, hstage, .inr ⟨rfl, rfl⟩⟩
  · cases h

end Runs

end TgeCore.IO.OnWindows
