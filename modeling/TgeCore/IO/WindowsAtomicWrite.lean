import TgeCore.IO.WindowsWriteSound

namespace TgeCore.IO.OnWindows
open Library

/-- The files on a disk, where every name is of a file that exists. -/
structure WindowsOnDisk where
  entries : Path → Option Nat
  inodes : List (Inode UInt8 Unit)
  linked : ∀ name id, entries name = some id → id < inodes.length

namespace WindowsOnDisk

def disk (files : WindowsOnDisk) : WindowsFiles := { entries := files.entries, inodes := files.inodes }

def start (files : WindowsOnDisk) : WindowsWriters := { disk := files.disk }

def asOnDisk (files : WindowsOnDisk) : OnDisk where
  entries := files.entries
  inodes := files.inodes.map fun inode => ⟨inode.content, temporaryMode⟩
  linked := by
    intro name id hid
    rw [List.length_map]
    exact files.linked name id hid

end WindowsOnDisk

section Leads
variable {target : Path} {files : OnDisk} {s : Writers} {c : Call} {disk' : Files} {stage : Stage} {i : Nat}

theorem leads_unchanged (h : Sound target files.disk s) (hc : s.calls[i]? = some c)
    (hleads : Leads c s.disk disk' stage) (hsame : c.stage = .done none ∨ stage ≠ .done none) :
    disk'.read target = s.disk.read target := by
  cases hleads with
  | stays => rfl
  | once hgoesOn hchange => exact h.unchanged hc hchange (hsame.resolve_left hgoesOn)
  | twice hgoesOn hchange hgoesOn' hchange' =>
    have hfirst := sound_change h hc hgoesOn hchange
    have hsecond := hfirst.unchanged (List.getElem?_set_self (List.getElem?_eq_some_iff.mp hc).1) hchange'
      (hsame.resolve_left hgoesOn)
    exact hsecond.trans (h.unchanged hc hchange hgoesOn')

theorem leads_placed (h : Sound target files.disk s) (hc : s.calls[i]? = some c) (hleads : Leads c s.disk disk' stage)
    (hbefore : c.stage ≠ .done none) (hdone : stage = .done none) : disk'.read target = some c.content := by
  cases hleads with
  | stays => exact absurd hdone hbefore
  | once hgoesOn hchange => exact h.placed hc hchange hdone
  | @twice disk₁ _ stage₁ _ hgoesOn hchange hgoesOn' hchange' =>
    have hfirst := sound_change h hc hgoesOn hchange
    have hc' : (s.calls.set i { c with stage := stage₁ })[i]? = some { c with stage := stage₁ } :=
      List.getElem?_set_self (List.getElem?_eq_some_iff.mp hc).1
    have hread := hfirst.placed hc' hchange' hdone
    exact hread

end Leads

section Returns
variable {c : WriteCall} {disk disk' : WindowsFiles} {outcome : WriteOutcome}

/-- A call reports success once its rename has gone through. -/
theorem WriteCall.step_succeeds (h : c.step disk outcome = some (disk', .done none)) : c.stage.isPlaced = true := by
  have hgoesOn : ∀ {disk : WindowsFiles} {o : Opened} {n : Nat}, some (disk, c.writeAll o n) ≠
      some (disk', .done none) := by
    intro disk o n heq
    have hstage := congrArg (fun next => next.2.asStage.opened) (Option.some.inj heq)
    simp only [asStage_writeAll, writeAll_opened] at hstage
    cases hstage
  unfold WriteCall.step at h
  split at h
  · dsimp only at h
    split at h
    · exact absurd h hgoesOn
    · cases h
  · have hstage := congrArg Prod.snd (Option.some.inj h)
    dsimp only at hstage
    split at hstage
    · cases hstage
    · cases hstage
  · split at h
    · split at h
      · cases h
      · exact absurd h hgoesOn
    · cases h
  · cases h
  · cases h
  · cases h
  · cases h
  · have hstage := congrArg Prod.snd (Option.some.inj h)
    dsimp only at hstage
    split at hstage
    · cases hstage
    · cases hstage
  · have hstage := congrArg Prod.snd (Option.some.inj h)
    dsimp only at hstage
    split at hstage
    · cases hstage
    · split at hstage
      · cases hstage
      · cases hstage
  · rename_i hstage
    rw [hstage]
    rfl
  · cases h
  · cases h

end Returns

theorem write_result_eq_some {stage : WriteStage} {error : Option ErrorCode} (h : stage.result = some error) :
    stage = .done error := by
  cases stage with
  | done error' =>
    cases h
    rfl
  | _ => cases h

/-- What is true of the target in a state that callers on Windows can bring about: it is whole, and as before until a
rename goes through; the rename puts the call's content there and nothing else changes it; a call that reports success
has made its rename, and one that reports an error has removed its temporary file unless neither form of the deletion
could be set, or only the classic one and others have the file open. -/
structure WholeOnWindows (target : Path) (before : WindowsFiles) (s : WindowsWriters) : Prop where
  whole : s.disk.read target = before.read target ∨
    ∃ c ∈ s.calls, c.stage.isPlaced = true ∧ s.disk.read target = some c.content
  failed : (∀ c ∈ s.calls, c.stage.isPlaced = false) → s.disk.read target = before.read target
  placed : ∀ i outcome t out (c d : WriteCall), s.step (.act i outcome) = some (t, out) → s.calls[i]? = some c →
    c.stage.isPlaced = false → t.calls[i]? = some d → d.stage.isPlaced = true → t.disk.read target = some c.content
  unchanged : ∀ event t out, s.step event = some (t, out) → (∀ torn back, event ≠ .powerLoss torn back) →
    (∀ (i : Nat) (c d : WriteCall), s.calls[i]? = some c → t.calls[i]? = some d →
      d.stage.isPlaced = c.stage.isPlaced) → t.disk.read target = s.disk.read target
  succeeded : ∀ event t i, s.step event = some (t, some (i, none)) →
    ∃ c, s.calls[i]? = some c ∧ c.stage.isPlaced = true
  cleaned : ∀ i outcome t error c opened, s.calls[i]? = some c → c.asCall.stage.opened = some opened →
    s.step (.act i outcome) = some (t, some (i, some error)) →
      t.disk.entries opened.temporaryPath = none ∨ ∃ deletion, c.stage = .close opened (some (error, deletion)) ∧
        (deletion = .none ∨ deletion = .classic ∧ outcome = .close false)
  /-- A step of a call is none, one or two that a call on Linux can make. -/
  simulates : ∀ i outcome t out (c d : WriteCall), s.step (.act i outcome) = some (t, out) → s.calls[i]? = some c →
    t.calls[i]? = some d → Leads c.asCall (asFiles s.disk) (asFiles t.disk) d.stage.asStage

section Sound
variable {target : Path} {files : WindowsOnDisk} {s t : WindowsWriters}

theorem sound_run {events : List WriteEvent} {outs : List (Option (Nat × Option ErrorCode))}
    (hrun : windowsWriters.run files.start events = some (s, outs))
    (htarget : ∀ path canonical failed content, .call path canonical failed content ∈ events →
      resolveLink path canonical = target) : Sound target files.asOnDisk.disk s.asWriters := by
  refine Machine.run_invariant (fun (events : List WriteEvent) _ s =>
    (∀ path canonical failed content, .call path canonical failed content ∈ events →
      resolveLink path canonical = target) → Sound target files.asOnDisk.disk s.asWriters) [] [] ?_
    (fun _ => Sound.start target files.asOnDisk) hrun htarget
  intro events outs s event t out hinv hstep hall
  have hbefore := hinv fun path canonical failed content hmem =>
    hall path canonical failed content (List.mem_append_left _ hmem)
  refine sound_step hbefore (fun path canonical failed content heq => hall path canonical failed content ?_) hstep
  rw [heq]
  exact List.mem_append_right _ List.mem_cons_self

theorem sound_whole (h : Sound target files.asOnDisk.disk s.asWriters) : s.disk.read target = files.disk.read target ∨
    ∃ c ∈ s.calls, c.stage.isPlaced = true ∧ s.disk.read target = some c.content := by
  have hread := h.read
  rw [show s.asWriters.disk = asFiles s.disk from rfl, show files.asOnDisk.disk = asFiles files.disk from rfl,
    asFiles_read, asFiles_read] at hread
  rcases hread with hbefore | ⟨c, hc, hdone, hcontent⟩
  · exact .inl hbefore
  · obtain ⟨c, hmem, rfl⟩ := List.mem_map.mp hc
    exact .inr ⟨c, hmem, (asStage_placed c.stage).mpr hdone, hcontent⟩

theorem sound_act (h : Sound target files.asOnDisk.disk s.asWriters) {i : Nat} {outcome : WriteOutcome}
    {out : Option (Nat × Option ErrorCode)} {c d : WriteCall} (hstep : s.step (.act i outcome) = some (t, out))
    (hc : s.calls[i]? = some c) (hd : t.calls[i]? = some d) :
    (c.stage.isPlaced = false → d.stage.isPlaced = true → t.disk.read target = some c.content) ∧
      (d.stage.isPlaced = c.stage.isPlaced → t.disk.read target = s.disk.read target) := by
  obtain ⟨c', disk', stage, hc', hcall, rfl, -⟩ := act_cases_windows hstep
  cases hc.symm.trans hc'
  obtain rfl : { c with stage } = d :=
    Option.some.inj ((List.getElem?_set_self (List.getElem?_eq_some_iff.mp hc).1).symm.trans hd)
  have hleads := WriteCall.step_leads hcall
  have hcalled := asWriters_call hc
  have hplaced := asStage_placed c.stage
  have hplaced' := asStage_placed stage
  constructor
  · intro hbefore hafter
    have hread := leads_placed h hcalled hleads ?_ (hplaced'.mp hafter)
    · rw [asFiles_read] at hread
      exact hread
    · intro hdone
      rw [hplaced.mpr hdone] at hbefore
      cases hbefore
  · intro hsame
    have hread := leads_unchanged h hcalled hleads ?_
    · rw [asFiles_read] at hread
      exact hread.trans (asFiles_read s.disk target)
    · cases hbefore : c.stage.isPlaced with
      | true => exact .inl (hplaced.mp hbefore)
      | false =>
        right
        intro hdone
        rw [hplaced'.mpr hdone, hbefore] at hsame
        cases hsame

end Sound

/-- Callers on Windows that write to one target, in any order of their steps, each of which may fail, and with losses
of power at any moment. -/
theorem windows_writers_whole (files : WindowsOnDisk) (target : Path) {events : List WriteEvent} {s : WindowsWriters}
    {outs : List (Option (Nat × Option ErrorCode))}
    (hrun : windowsWriters.run files.start events = some (s, outs))
    (htarget : ∀ path canonical failed content, .call path canonical failed content ∈ events →
      resolveLink path canonical = target) : WholeOnWindows target files.disk s := by
  have hsound := sound_run hrun htarget
  constructor
  · exact sound_whole hsound
  · intro hnone
    rcases sound_whole hsound with hbefore | ⟨c, hc, hplaced, -⟩
    · exact hbefore
    · cases hplaced.symm.trans (hnone c hc)
  · intro i outcome t out c d hstep hc hbefore hd hafter
    exact (sound_act hsound hstep hc hd).1 hbefore hafter
  · intro event t out hstep hpower hsame
    cases event with
    | call path canonical failed content =>
      cases hstep
      rfl
    | powerLoss torn back => exact absurd rfl (hpower torn back)
    | act i outcome =>
      obtain ⟨c, disk', stage, hc, hcall, rfl, -⟩ := act_cases_windows hstep
      have hd : (s.calls.set i { c with stage })[i]? = some { c with stage } :=
        List.getElem?_set_self (List.getElem?_eq_some_iff.mp hc).1
      exact (sound_act hsound hstep hc hd).2 (hsame i c _ hc hd)
  · intro event t i hstep
    cases event with
    | call path canonical failed content =>
      obtain ⟨-, hout⟩ := Prod.mk.inj (Option.some.inj hstep)
      cases failed with
      | none => cases hout
      | some error => cases hout
    | powerLoss torn back =>
      obtain ⟨disk', -, heq⟩ := Option.map_eq_some_iff.mp hstep
      cases heq
    | act j outcome =>
      obtain ⟨c, disk', stage, hc, hcall, rfl, hout⟩ := act_cases_windows hstep
      obtain ⟨error, hresult, heq⟩ := Option.map_eq_some_iff.mp hout.symm
      cases heq
      rw [write_result_eq_some hresult] at hcall
      exact ⟨c, hc, WriteCall.step_succeeds hcall⟩
  · intro i outcome t error c opened hc hopened hstep
    obtain ⟨c', disk', stage, hc', hcall, rfl, hout⟩ := act_cases_windows hstep
    cases hc.symm.trans hc'
    obtain ⟨error', hresult, heq⟩ := Option.map_eq_some_iff.mp hout.symm
    cases heq
    rw [write_result_eq_some hresult] at hcall
    exact WriteCall.step_cleans hcall hopened
  · intro i outcome t out c d hstep hc hd
    obtain ⟨c', disk', stage, hc', hcall, rfl, -⟩ := act_cases_windows hstep
    cases hc.symm.trans hc'
    obtain rfl : { c with stage } = d :=
      Option.some.inj ((List.getElem?_set_self (List.getElem?_eq_some_iff.mp hc).1).symm.trans hd)
    exact WriteCall.step_leads hcall

def oneWindowsFile : WindowsOnDisk where
  entries := fun name => if name = "a" then some 0 else none
  inodes := [⟨[1], ()⟩]
  linked := by
    intro name id hid
    split at hid
    · cases hid
      exact Nat.zero_lt_one
    · cases hid

/-- A name that is taken, a write that is cut short, and a rename that has to fall back to the classic form. -/
def fallbackRun : List WriteEvent :=
  [.call "a" none none [7, 8, 9], .act 0 (.create "abcdef" (some ⟨80, by decide⟩)), .act 0 (.create "ghijkl" none),
    .act 0 (.write (.ok 1)), .act 0 (.write (.ok 2)), .act 0 (.flush none), .act 0 (.rename (some ⟨87, by decide⟩)),
    .act 0 (.rename none), .act 0 (.close true)]

theorem windows_writers_whole_fallback : ∃ s outs,
    windowsWriters.run oneWindowsFile.start fallbackRun = some (s, outs) ∧
      s.disk.read "a" = some [7, 8, 9] ∧ WholeOnWindows "a" oneWindowsFile.disk s := by
  have hread : (windowsWriters.run oneWindowsFile.start fallbackRun).map (fun last => last.1.disk.read "a") =
      some (some [7, 8, 9]) := by decide +kernel
  obtain ⟨⟨s, outs⟩, hrun, hlast⟩ := Option.map_eq_some_iff.mp hread
  refine ⟨s, outs, hrun, hlast, windows_writers_whole oneWindowsFile "a" hrun ?_⟩
  intro path canonical failed content hmem
  simp only [fallbackRun, List.mem_cons, List.not_mem_nil, or_false, reduceCtorEq, WriteEvent.call.injEq] at hmem
  obtain ⟨rfl, rfl, -⟩ := hmem
  rfl

end TgeCore.IO.OnWindows
