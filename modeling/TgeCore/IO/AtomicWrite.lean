import TgeCore.IO.WriteSound

namespace TgeCore.IO
open Library

variable {c : Call} {disk disk' : Files} {stage : Stage} {outcome : Outcome}

section Read
variable {target : Path} {files : OnDisk} {s t : Writers}

/-- A reader of the target gets the old file or that of a call that has returned with success. -/
theorem Sound.read (h : Sound target files.disk s) : s.disk.read target = files.disk.read target ∨
    ∃ c ∈ s.calls, c.stage = .done none ∧ s.disk.read target = some c.content := by
  cases h.whole _ List.mem_cons_self with
  | inl hbefore =>
    left
    unfold Disk.read
    rw [hbefore]
    cases hentry : files.disk.entries target with
    | none => rfl
    | some id => exact (h.old id (files.linked target id hentry)).1
  | inr hcomplete =>
    obtain ⟨id, hid, hcomplete⟩ := hcomplete
    obtain ⟨i, c, hc, hdone, hwritten⟩ := hcomplete.written
    refine .inr ⟨c, List.mem_of_getElem? hc, hdone, ?_⟩
    unfold Disk.read
    rw [hid]
    exact hwritten

/-- No call writes to the file that the target names. -/
theorem Sound.target_closed (h : Sound target files.disk s) {id : Nat} (hid : s.disk.entries target = some id)
    {i : Nat} {o : Opened} (hc : s.calls[i]? = some c) (ho : c.stage.opened = some o) : o.file ≠ id := by
  cases h.whole _ List.mem_cons_self with
  | inl hbefore =>
    have hlt := files.linked target id (hbefore.symm.trans hid)
    have hle := (h.opened i c o hc ho).1
    have hlength : files.disk.inodes.length = files.inodes.length := rfl
    omega
  | inr hcomplete =>
    obtain ⟨id', hid', hcomplete⟩ := hcomplete
    cases hid.symm.trans hid'
    exact hcomplete.closed i c o hc ho

theorem read_congr {name : Path} (hentry : disk'.entries name = disk.entries name)
    (hcontent : ∀ id, disk.entries name = some id → disk'.content id = disk.content id) :
    disk'.read name = disk.read name := by
  unfold Disk.read
  rw [hentry]
  cases hid : disk.entries name with
  | none => rfl
  | some id => exact hcontent id hid

/-- A step of a call that does not end in success leaves the target alone. -/
theorem Sound.unchanged (h : Sound target files.disk s) {i : Nat} (hc : s.calls[i]? = some c)
    (hchange : Change c s.disk disk' stage) (hfails : stage ≠ .done none) :
    disk'.read target = s.disk.read target := by
  cases hchange with
  | quiet hquiet => exact read_congr (congrFun hquiet.entries target) fun id _ => hquiet.content id
  | create letters hstage hlength habsent =>
    have hne : target ≠ temporaryPath c.target letters := by
      rw [h.targets i c hc]
      exact Ne.symm (temporaryPath_ne hlength)
    refine read_congr (Function.update_of_ne hne _ _) fun id hid => s.disk.content_create _ _ ?_
    exact h.linked _ List.mem_cons_self target id hid
  | append opened numWritten count hstage hcount =>
    refine read_congr rfl fun id hid => Disk.content_append _ _ _ (h.target_closed hid hc ?_)
    rw [hstage]
    rfl
  | rename opened hstage => exact absurd rfl hfails
  | unlink opened error hstage =>
    have hne := (h.opened i c opened hc (by rw [hstage]; rfl)).2.2
    exact read_congr (Function.update_of_ne (Ne.symm hne) _ _) fun id _ => rfl

/-- A step that ends a call in success puts its content there. -/
theorem Sound.placed (h : Sound target files.disk s) {i : Nat} (hc : s.calls[i]? = some c)
    (hchange : Change c s.disk disk' stage) (hdone : stage = .done none) : disk'.read target = some c.content := by
  cases hchange with
  | quiet hquiet => exact absurd hdone hquiet.goesOn
  | create letters hstage hlength habsent => cases hdone
  | append opened numWritten count hstage hcount =>
    have hopened := (writeAll_opened c opened (numWritten + count)).symm.trans (congrArg Stage.opened hdone)
    cases hopened
  | rename opened hstage => exact (h.rename hc hstage).2
  | unlink opened error hstage => cases hdone

end Read

theorem result_eq_some {error : Option ErrorCode} (h : stage.result = some error) : stage = .done error := by
  cases stage with
  | done error' =>
    cases h
    rfl
  | _ => cases h

theorem act_cases {s t : Writers} {i : Nat} {out : Option (Nat × Option ErrorCode)}
    (h : s.step (.act i outcome) = some (t, out)) :
    ∃ c disk' stage, s.calls[i]? = some c ∧ c.step s.disk outcome = some (disk', stage) ∧
      t = { disk := disk', calls := s.calls.set i { c with stage } } ∧ out = stage.result.map fun error => (i, error) := by
  obtain ⟨c, hc, hnext⟩ := Option.bind_eq_some_iff.mp h
  obtain ⟨⟨disk', stage⟩, hcall, heq⟩ := Option.map_eq_some_iff.mp hnext
  cases heq
  exact ⟨c, disk', stage, hc, hcall, rfl, rfl⟩

/-- The one way for a call that has a temporary file to return an error. -/
theorem Call.step_removes {error : ErrorCode} {o : Opened} (h : c.step disk outcome = some (disk', .done (some error)))
    (ho : c.stage.opened = some o) : disk'.entries o.temporaryPath = none ∨ outcome = .remove false := by
  have hgoesOn : ∀ {disk : Files} {n : Nat} {opened : Opened}, some (disk, c.writeAll opened n) ≠
      some (disk', .done (some error)) := by
    intro disk n opened heq
    have hstage := congrArg (fun next => next.2.opened) (Option.some.inj heq)
    simp only [writeAll_opened] at hstage
    cases hstage
  unfold Call.step at h
  split at h
  · rename_i letters hstage
    rw [hstage] at ho
    cases ho
  · rename_i errno hstage
    rw [hstage] at ho
    cases ho
  · obtain ⟨mode, -, heq⟩ := Option.map_eq_some_iff.mp h
    cases heq
  · exact absurd h hgoesOn
  · cases h
  · split at h
    · split at h
      · exact absurd h hgoesOn
      · cases h
    · cases h
  · have hstage := congrArg Prod.snd (Option.some.inj h)
    simp only at hstage
    split at hstage
    · cases hstage
    · cases hstage
  · cases h
  · cases h
  · cases h
  · cases h
  · cases h
  · cases h
  · cases h
  · rename_i opened error' isRemoved hstage
    rw [hstage] at ho
    cases ho
    cases isRemoved with
    | true =>
      cases h
      exact .inl (Function.update_self ..)
    | false => exact .inr rfl
  · cases h

/-- What is true of the target in a state that callers can bring about: it is whole, and as before
until a call succeeds; a call that reports success has put its content there, no other step changes
it, and a call that reports an error has removed its temporary file unless that failed. -/
structure AllOrNothing (target : Path) (before : Files) (s : Writers) : Prop where
  whole : s.disk.read target = before.read target ∨
    ∃ c ∈ s.calls, c.stage = .done none ∧ s.disk.read target = some c.content
  failed : (∀ c ∈ s.calls, c.stage ≠ .done none) → s.disk.read target = before.read target
  inPlace : ∀ event t i, s.step event = some (t, some (i, none)) →
    ∃ c, t.calls[i]? = some c ∧ t.disk.read target = some c.content
  unchanged : ∀ event t out, s.step event = some (t, out) → (∀ torn back, event ≠ .powerLoss torn back) →
    (∀ i, out ≠ some (i, none)) → t.disk.read target = s.disk.read target
  cleaned : ∀ i outcome t error c o, s.calls[i]? = some c → c.stage.opened = some o →
    s.step (.act i outcome) = some (t, some (i, some error)) →
    t.disk.entries o.temporaryPath = none ∨ outcome = .remove false

/-- Callers that write to one target, in any order of their steps, each of which may fail, and
with losses of power at any moment. -/
theorem writers_all_or_nothing (files : OnDisk) (target : Path) {events : List FileEvent} {s : Writers}
    {outs : List (Option (Nat × Option ErrorCode))}
    (hrun : writers.run files.start events = some (s, outs))
    (htarget : ∀ path canonical content, .call path canonical content ∈ events → resolveLink path canonical = target) :
    AllOrNothing target files.disk s := by
  have hsound : Sound target files.disk s := by
    refine Machine.run_invariant (fun (events : List FileEvent) _ s =>
      (∀ path canonical content, .call path canonical content ∈ events → resolveLink path canonical = target) →
        Sound target files.disk s) [] [] ?_ (fun _ => .start target files) hrun htarget
    intro events outs s event t out hinv hstep hall
    refine (hinv fun path canonical content hmem => hall path canonical content (List.mem_append_left _ hmem)).step
      (fun path canonical content heq => hall path canonical content ?_) hstep
    rw [heq]
    exact List.mem_append_right _ List.mem_cons_self
  exact {
    whole := hsound.read
    failed := by
      intro hnone
      refine hsound.read.resolve_right fun hdone => ?_
      obtain ⟨c, hc, hstage, -⟩ := hdone
      exact hnone c hc hstage
    inPlace := by
      intro event t i hstep
      cases event with
      | call path canonical content => cases hstep
      | powerLoss torn back =>
        obtain ⟨disk', -, heq⟩ := Option.map_eq_some_iff.mp hstep
        cases heq
      | act j outcome =>
        obtain ⟨c, disk', stage, hc, hcall, rfl, hout⟩ := act_cases hstep
        obtain ⟨error, hresult, heq⟩ := Option.map_eq_some_iff.mp hout.symm
        cases heq
        have hplaced := hsound.placed hc (Call.step_change hcall) (result_eq_some hresult)
        exact ⟨_, List.getElem?_set_self (List.getElem?_eq_some_iff.mp hc).1, hplaced⟩
    unchanged := by
      intro event t out hstep hpower hfails
      cases event with
      | call path canonical content =>
        cases hstep
        rfl
      | powerLoss torn back => exact absurd rfl (hpower torn back)
      | act i outcome =>
        obtain ⟨c, disk', stage, hc, hcall, rfl, rfl⟩ := act_cases hstep
        refine hsound.unchanged hc (Call.step_change hcall) ?_
        rintro rfl
        exact hfails i rfl
    cleaned := by
      intro i outcome t error c o hc ho hstep
      obtain ⟨c', disk', stage, hc', hcall, rfl, hout⟩ := act_cases hstep
      cases hc.symm.trans hc'
      obtain ⟨error', hresult, heq⟩ := Option.map_eq_some_iff.mp hout.symm
      cases heq
      have hdone := result_eq_some hresult
      subst hdone
      exact Call.step_removes hcall ho }

/-- A disk with one file, for an example. -/
def oneFile : OnDisk where
  entries := fun name => if name = "a" then some 0 else none
  inodes := [⟨[1], 0o600⟩]
  linked := by
    intro name id hid
    split at hid
    · cases hid
      exact Nat.zero_lt_one
    · cases hid

/-- A write that is cut short, then interrupted, and goes through in the end. -/
theorem writers_all_or_nothing_short :
    ∃ s outs, writers.run oneFile.start [.call "a" none [7, 8, 9], .act 0 (.mkostemp (.ok "abcdef")), .act 0 (.stat true),
        .act 0 (.fchmod none), .act 0 (.write (.ok 1)), .act 0 (.write (.error EINTR)), .act 0 (.write (.ok 2)),
        .act 0 (.fsync none), .act 0 (.close none), .act 0 (.rename none)] = some (s, outs) ∧
      s.disk.read "a" = some [7, 8, 9] ∧ AllOrNothing "a" oneFile.disk s := by
  have hread : (writers.run oneFile.start [.call "a" none [7, 8, 9], .act 0 (.mkostemp (.ok "abcdef")), .act 0 (.stat true),
      .act 0 (.fchmod none), .act 0 (.write (.ok 1)), .act 0 (.write (.error EINTR)), .act 0 (.write (.ok 2)),
      .act 0 (.fsync none), .act 0 (.close none), .act 0 (.rename none)]).map (fun last => last.1.disk.read "a") =
      some (some [7, 8, 9]) := by decide +kernel
  obtain ⟨⟨s, outs⟩, hrun, hlast⟩ := Option.map_eq_some_iff.mp hread
  refine ⟨s, outs, hrun, hlast, writers_all_or_nothing oneFile "a" hrun ?_⟩
  intro path canonical content hmem
  simp only [List.mem_cons, List.not_mem_nil, or_false, reduceCtorEq, FileEvent.call.injEq] at hmem
  obtain ⟨rfl, rfl, -⟩ := hmem
  rfl

end TgeCore.IO
