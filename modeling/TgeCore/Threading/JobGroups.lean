import Mathlib.Logic.Relation
import TgeCore.Threading.JobBooks

namespace TgeCore.Threading
open Library

section Statement
variable {G : Type}

/-- The group itself, the group whose job made it, and so on. -/
def Ancestor (parent : G → Option G) : G → G → Prop :=
  Relation.ReflTransGen fun g h => parent g = some h

/-- The threads that are in RunOnePending, of the pool and of Wait. -/
def CJobSystem.runs (s : CJobSystem G) : List (RunOneAt G) :=
  s.calls.filterMap (fun
    | .helping _ run => some run
    | _ => none) ++
  s.workers.filterMap fun
    | .runner _ run => some run
    | _ => none

end Statement

variable {G : Type} [DecidableEq G] {parent : G → Option G} {s s' : CJobSystem G} {group : G}
  {os : List (JobSeen G)} {out : JobSeen G}

/-- What a group's jobs weigh is what they weigh at each stage. -/
theorem CJobSystem.weigh_eq (s : CJobSystem G) (group : G) (w : JobStage → Nat → Nat) :
    s.weigh group w = tally (w .counted) (s.jobsAt group .counted) +
      tally (w .unchecked) (s.jobsAt group .unchecked) +
      tally (w .decided) (s.jobsAt group .decided) + tally (w .dropping) (s.jobsAt group .dropping) := by
  have hheld : s.weigh group w = tally (HeldJob.weight group w) s.held := by
    simp [weigh, held, tally_flatMap]
  rw [hheld]
  unfold jobsAt
  induction s.held with
  | nil => rfl
  | cons h rest ih =>
    obtain ⟨g, stage, job⟩ := h
    by_cases hg : g = group
    · cases stage
      all_goals
        simp [HeldJob.weight, hg, ih]
        omega
    · simp [HeldJob.weight, hg, ih]

theorem Books.once (h : Books os s group) :
    (s.jobsAt group .counted ++ (s.groups group).pending ++ s.jobsAt group .unchecked ++
      jobsOf group .started os ++ jobsOf group .skipped os ++ jobsOf group .dropped os).Perm
        (jobsOf group .submitted os) := by
  refine List.perm_iff_count.mpr fun n => ?_
  have hcount := h.decided fun k => if k = n then 1 else 0
  rw [s.weigh_eq] at hcount
  simp only [undecided_counted, undecided_unchecked, undecided_decided, undecided_dropping, tally_zero,
    tally_count] at hcount
  rw [h.numbers]
  simp only [List.count_append]
  omega

theorem Books.settledOnce (h : Books os s group) :
    (s.jobsAt group .counted ++ (s.groups group).pending ++ s.jobsAt group .unchecked ++
      s.jobsAt group .decided ++ s.jobsAt group .dropping ++ jobsOf group .settled os).Perm
        (jobsOf group .submitted os) := by
  refine List.perm_iff_count.mpr fun n => ?_
  have hcount := h.placed fun k => if k = n then 1 else 0
  rw [s.weigh_eq] at hcount
  simp only [tally_count] at hcount
  rw [h.numbers]
  simp only [List.count_append]
  omega

theorem Books.activeJobs (h : Books os s group) : (s.groups group).activeJobs =
    (s.groups group).pending.length +
      ((s.jobsAt group .unchecked).length + (s.jobsAt group .decided).length) +
      (s.jobsAt group .counted).length + (s.jobsAt group .dropping).length := by
  have hactive := h.active
  have hplaced := h.placed fun _ => 1
  rw [s.weigh_eq] at hplaced
  simp only [tally_one, List.length_range] at hplaced
  omega

section Waits

omit [DecidableEq G] in
theorem check_out (g : G) (job : Nat) (ancestor : G) :
    (s.check parent g job ancestor).2 ≠ .waited group := by
  unfold CJobSystem.check
  split
  · simp
  · split
    · simp
    · simp

theorem runOne_out (run : RunOneAt G) : (s.runOne parent run).2.2 ≠ .waited group := by
  cases run with
  | starting g =>
    simp only [CJobSystem.runOne]
    split
    · simp
    · simp
  | popped g job => exact check_out g job g
  | checking g job ancestor => exact check_out g job ancestor
  | running g job => simp [CJobSystem.runOne]
  | settling g job => simp [CJobSystem.runOne]

/-- Wait returns only where it reads no active job. -/
theorem step_waited {m : JobMove G} (hst : s.step parent m = some (s', .waited group)) :
    (s.groups group).activeJobs = 0 := by
  cases m with
  | call index =>
    obtain ⟨c, -, hst⟩ := Option.bind_eq_some_iff.mp hst
    cases c with
    | waiting g =>
      simp only [CJobSystem.callStep] at hst
      split at hst
      · rename_i hnone
        cases hst
        exact hnone
      · cases hst
    | helping g run =>
      simp only [CJobSystem.callStep, Option.some.injEq, Prod.mk.injEq] at hst
      exact absurd hst.2 (runOne_out run)
    | locking before =>
      simp only [CJobSystem.callStep] at hst
      split at hst
      all_goals cases hst
    | loadingPending before =>
      simp only [CJobSystem.callStep] at hst
      split at hst
      all_goals cases hst
    | loadingActive before =>
      simp only [CJobSystem.callStep] at hst
      split at hst
      all_goals cases hst
    | _ => cases hst
  | work worker =>
    obtain ⟨x, -, hst⟩ := Option.bind_eq_some_iff.mp hst
    cases x with
    | idle =>
      simp only [CJobSystem.workStep] at hst
      split at hst
      · cases hst
      · split at hst
        all_goals cases hst
    | runner job run =>
      simp only [CJobSystem.workStep, Option.some.injEq, Prod.mk.injEq] at hst
      exact absurd hst.2 (runOne_out run)
    | finishing job =>
      simp only [CJobSystem.workStep] at hst
      split at hst
      all_goals cases hst
    | _ => cases hst
  | _ => cases hst

/-- Where no job is active, every job that was counted is settled. -/
theorem Books.settled (h : Books os s group) (hnone : (s.groups group).activeJobs = 0) :
    (jobsOf group .settled os).Perm (jobsOf group .submitted os) := by
  have hactive := h.activeJobs
  rw [hnone] at hactive
  have hpending : (s.groups group).pending = [] := List.eq_nil_of_length_eq_zero (by omega)
  have hempty : ∀ stage, s.jobsAt group stage = [] := by
    intro stage
    apply List.eq_nil_of_length_eq_zero
    cases stage
    all_goals omega
  have hperm := h.settledOnce
  simpa [hpending, hempty] using hperm

end Waits

section Cancellation

omit [DecidableEq G] in
theorem CJobSystem.mem_runs {s : CJobSystem G} {run : RunOneAt G} :
    run ∈ s.runs ↔ (∃ g, .helping g run ∈ s.calls) ∨ ∃ job, .runner job run ∈ s.workers := by
  unfold runs
  rw [List.mem_append, List.mem_filterMap, List.mem_filterMap]
  refine or_congr ⟨fun h => ?_, fun h => ?_⟩ ⟨fun h => ?_, fun h => ?_⟩
  · obtain ⟨c, hc, hrun⟩ := h
    split at hrun
    · rename_i g run'
      cases hrun
      exact ⟨g, hc⟩
    · cases hrun
  · obtain ⟨g, hc⟩ := h
    exact ⟨_, hc, rfl⟩
  · obtain ⟨x, hx, hrun⟩ := h
    split at hrun
    · rename_i job run'
      cases hrun
      exact ⟨job, hx⟩
    · cases hrun
  · obtain ⟨job, hx⟩ := h
    exact ⟨_, hx, rfl⟩

/-- What a step does to the threads in RunOnePending and to the cancelled flags. -/
structure Walks (parent : G → Option G) (s s' : CJobSystem G) (out : JobSeen G) : Prop where
  cancelled : ∀ a, (s.groups a).cancelled = true → (s'.groups a).cancelled = true
  runs : ∀ run' ∈ s'.runs, run' ∈ s.runs ∨ (∃ g, run' = .starting g) ∨
    ∃ run ∈ s.runs, (s.runOne parent run).2.1 = .inl run'
  started : ∀ g job, out = .started g job → ∃ run ∈ s.runs, (s.runOne parent run).2.2 = .started g job

theorem CJobSystem.cancelled_setGroup (s : CJobSystem G) {g a : G} {state : CJobGroup.SState}
    (hstate : (s.groups g).cancelled = true → state.cancelled = true)
    (ha : (s.groups a).cancelled = true) : ((s.setGroup g state).groups a).cancelled = true := by
  by_cases hg : a = g
  · subst hg
    rw [groups_setGroup_self]
    exact hstate ha
  · rwa [groups_setGroup_of_ne s state hg]

theorem runOne_cancelled (run : RunOneAt G) (a : G) (ha : (s.groups a).cancelled = true) :
    ((s.runOne parent run).1.groups a).cancelled = true := by
  cases run with
  | starting g =>
    simp only [CJobSystem.runOne]
    split
    · exact ha
    · exact s.cancelled_setGroup id ha
  | settling g job => exact s.cancelled_setGroup id ha
  | _ => exact ha

/-- A step of a call that neither is in RunOnePending before nor goes on in it. -/
theorem Walks.call {i : Nat} {c' : JobCallAt G} (hcalls : s'.calls = s.calls.set i c')
    (hworkers : s'.workers = s.workers)
    (hcancelled : ∀ a, (s.groups a).cancelled = true → (s'.groups a).cancelled = true)
    (hnext : ∀ g run', c' = .helping g run' → run' = .starting g)
    (hout : ∀ g job, out ≠ .started g job) : Walks parent s s' out := by
  refine ⟨hcancelled, fun run' hrun' => ?_, fun g job ho => absurd ho (hout g job)⟩
  cases CJobSystem.mem_runs.mp hrun' with
  | inl hcall =>
    obtain ⟨g, hg⟩ := hcall
    rw [hcalls] at hg
    cases List.mem_or_eq_of_mem_set hg with
    | inl hold => exact .inl (CJobSystem.mem_runs.mpr (.inl ⟨g, hold⟩))
    | inr hnew => exact .inr (.inl ⟨g, hnext g run' hnew.symm⟩)
  | inr hwork =>
    rw [hworkers] at hwork
    exact .inl (CJobSystem.mem_runs.mpr (.inr hwork))

theorem Walks.work {i : Nat} {x' : WorkerAt G} (hcalls : s'.calls = s.calls)
    (hworkers : s'.workers = s.workers.set i x')
    (hcancelled : ∀ a, (s.groups a).cancelled = true → (s'.groups a).cancelled = true)
    (hnext : ∀ job run', x' = .runner job run' → ∃ g, run' = .starting g)
    (hout : ∀ g job, out ≠ .started g job) : Walks parent s s' out := by
  refine ⟨hcancelled, fun run' hrun' => ?_, fun g job ho => absurd ho (hout g job)⟩
  cases CJobSystem.mem_runs.mp hrun' with
  | inl hcall =>
    rw [hcalls] at hcall
    exact .inl (CJobSystem.mem_runs.mpr (.inl hcall))
  | inr hwork =>
    obtain ⟨job, hj⟩ := hwork
    rw [hworkers] at hj
    cases List.mem_or_eq_of_mem_set hj with
    | inl hold => exact .inl (CJobSystem.mem_runs.mpr (.inr ⟨job, hold⟩))
    | inr hnew => exact .inr (.inl (hnext job run' hnew.symm))

theorem Walks.help {i : Nat} {g : G} {run : RunOneAt G} {c' : JobCallAt G}
    (hc : s.calls[i]? = some (.helping g run))
    (hnext : ∀ h run', c' = .helping h run' → (s.runOne parent run).2.1 = .inl run') :
    Walks parent s ((s.runOne parent run).1.setCall i c') (s.runOne parent run).2.2 := by
  have hentry := runOne_entry parent s run g
  have hrun : run ∈ s.runs := CJobSystem.mem_runs.mpr (.inl ⟨g, List.mem_of_getElem? hc⟩)
  refine ⟨fun a ha => runOne_cancelled run a ha, fun run' hrun' => ?_, fun h job ho => ⟨run, hrun, ho⟩⟩
  cases CJobSystem.mem_runs.mp hrun' with
  | inl hcall =>
    obtain ⟨h, hh⟩ := hcall
    simp only [CJobSystem.setCall, hentry.calls] at hh
    cases List.mem_or_eq_of_mem_set hh with
    | inl hold => exact .inl (CJobSystem.mem_runs.mpr (.inl ⟨h, hold⟩))
    | inr hnew => exact .inr (.inr ⟨run, hrun, hnext h run' hnew.symm⟩)
  | inr hwork =>
    simp only [CJobSystem.setCall, hentry.workers] at hwork
    exact .inl (CJobSystem.mem_runs.mpr (.inr hwork))

theorem Walks.runner {i job : Nat} {run : RunOneAt G} {x' : WorkerAt G}
    (hx : s.workers[i]? = some (.runner job run))
    (hnext : ∀ k run', x' = .runner k run' → (s.runOne parent run).2.1 = .inl run') (g : G) :
    Walks parent s ((s.runOne parent run).1.setWorker i x') (s.runOne parent run).2.2 := by
  have hentry := runOne_entry parent s run g
  have hrun : run ∈ s.runs := CJobSystem.mem_runs.mpr (.inr ⟨job, List.mem_of_getElem? hx⟩)
  refine ⟨fun a ha => runOne_cancelled run a ha, fun run' hrun' => ?_, fun h job ho => ⟨run, hrun, ho⟩⟩
  cases CJobSystem.mem_runs.mp hrun' with
  | inl hcall =>
    simp only [CJobSystem.setWorker, hentry.calls] at hcall
    exact .inl (CJobSystem.mem_runs.mpr (.inl hcall))
  | inr hwork =>
    obtain ⟨k, hk⟩ := hwork
    simp only [CJobSystem.setWorker, hentry.workers] at hk
    cases List.mem_or_eq_of_mem_set hk with
    | inl hold => exact .inl (CJobSystem.mem_runs.mpr (.inr ⟨k, hold⟩))
    | inr hnew => exact .inr (.inr ⟨run, hrun, hnext k run' hnew.symm⟩)

theorem callStep_walks {i : Nat} {c : JobCallAt G} (hc : s.calls[i]? = some c)
    (hst : s.callStep parent i c = some (s', out)) : Walks parent s s' out := by
  cases c with
  | submitting g priority =>
    cases hst
    exact .call rfl rfl (fun a => s.cancelled_setGroup id) (by simp) (by simp)
  | counted g job priority =>
    cases hst
    exact .call rfl rfl (fun a => s.cancelled_setGroup id) (by simp) (by simp)
  | waiting g =>
    simp only [CJobSystem.callStep] at hst
    split at hst
    · cases hst
      exact .call rfl rfl (fun a => id) (by simp) (by simp)
    · cases hst
      refine .call rfl rfl (fun a => id) (fun h run' hh => ?_) (by simp)
      cases hh
      rfl
  | helping g run =>
    simp only [CJobSystem.callStep, Option.some.injEq, Prod.mk.injEq] at hst
    obtain ⟨rfl, rfl⟩ := hst
    refine .help hc fun h run' hh => ?_
    split at hh
    · rename_i run'' hnext
      cases hh
      exact hnext
    · cases hh
    · cases hh
  | cancelling g =>
    cases hst
    exact .call rfl rfl (fun a => s.cancelled_setGroup fun _ => rfl) (by simp) (by simp)
  | swapping g =>
    simp only [CJobSystem.callStep, Option.some.injEq, Prod.mk.injEq] at hst
    obtain ⟨rfl, rfl⟩ := hst
    refine .call rfl rfl (fun a => s.cancelled_setGroup id) (fun h run' hh => ?_) (by simp)
    split at hh
    all_goals cases hh
  | dropping g jobs =>
    cases hst
    exact .call rfl rfl (fun a => s.cancelled_setGroup id) (by simp) (by simp)
  | locking before =>
    simp only [CJobSystem.callStep] at hst
    split at hst
    · cases hst
    · cases hst
      exact .call rfl rfl (fun a => id) (by simp) (by simp)
  | loadingPending before =>
    simp only [CJobSystem.callStep] at hst
    split at hst
    all_goals
      cases hst
      exact .call rfl rfl (fun a => id) (by simp) (by simp)
  | loadingActive before =>
    simp only [CJobSystem.callStep] at hst
    split at hst
    all_goals
      cases hst
      exact .call rfl rfl (fun a => id) (by simp) (by simp)
  | done => cases hst
  | _ =>
    cases hst
    exact .call rfl rfl (fun a => id) (by simp) (by simp)

theorem workStep_walks {i : Nat} {x : WorkerAt G} (hx : s.workers[i]? = some x)
    (hst : s.workStep parent i x = some (s', out)) (g : G) : Walks parent s s' out := by
  cases x with
  | idle =>
    simp only [CJobSystem.workStep] at hst
    split at hst
    · cases hst
      exact .work rfl rfl (fun a => id) (by simp) (by simp)
    · split at hst
      · cases hst
        exact .work rfl rfl (fun a => id) (by simp) (by simp)
      · cases hst
  | between job body =>
    cases hst
    refine .work rfl rfl (fun a => id) (fun k run' hk => ?_) (by simp)
    cases body with
    | runner h =>
      cases hk
      exact ⟨h, rfl⟩
    | other => cases hk
  | runner job run =>
    simp only [CJobSystem.workStep, Option.some.injEq, Prod.mk.injEq] at hst
    obtain ⟨rfl, rfl⟩ := hst
    refine .runner hx (fun k run' hk => ?_) g
    split at hk
    · rename_i run'' hnext
      cases hk
      exact hnext
    · cases hk
  | finishing job =>
    simp only [CJobSystem.workStep] at hst
    split at hst
    · cases hst
    · cases hst
      exact .work rfl rfl (fun a => id) (by simp) (by simp)
  | exited => cases hst
  | _ =>
    cases hst
    exact .work rfl rfl (fun a => id) (by simp) (by simp)

theorem begin_walks {c : JobCallAt G} (hc : ∀ g run, c ≠ .helping g run)
    (hst : s.begin c = some (s', out)) : Walks parent s s' out := by
  cases hst
  refine ⟨fun a => id, fun run' hrun' => ?_, by simp⟩
  cases CJobSystem.mem_runs.mp hrun' with
  | inl hcall =>
    obtain ⟨g, hg⟩ := hcall
    cases List.mem_append.mp hg with
    | inl hold => exact .inl (CJobSystem.mem_runs.mpr (.inl ⟨g, hold⟩))
    | inr hnew => exact absurd (List.mem_singleton.mp hnew).symm (hc g run')
  | inr hwork => exact .inl (CJobSystem.mem_runs.mpr (.inr hwork))

theorem step_walks {m : JobMove G} (hst : s.step parent m = some (s', out)) (g : G) :
    Walks parent s s' out := by
  cases m with
  | terminate =>
    cases hst
    exact ⟨fun a => id, fun run' hrun' => .inl hrun', by simp⟩
  | call index =>
    obtain ⟨c, hc, hst⟩ := Option.bind_eq_some_iff.mp hst
    exact callStep_walks hc hst
  | work worker =>
    obtain ⟨x, hx, hst⟩ := Option.bind_eq_some_iff.mp hst
    exact workStep_walks hx hst g
  | _ =>
    refine begin_walks ?_ hst
    simp

/-- A group or an ancestor of it is cancelled. -/
def CJobSystem.Doomed (parent : G → Option G) (s : CJobSystem G) (g : G) : Prop :=
  ∃ a, Ancestor parent g a ∧ (s.groups a).cancelled = true

omit [DecidableEq G] in
/-- A load that does not see the flag leaves a cancelled ancestor further up. -/
theorem CJobSystem.Doomed.above {g : G} (h : s.Doomed parent g) (hg : (s.groups g).cancelled = false) :
    ∃ next, parent g = some next ∧ s.Doomed parent next := by
  obtain ⟨a, ha, hcancelled⟩ := h
  cases ha.cases_head with
  | inl heq =>
    subst heq
    rw [hg] at hcancelled
    cases hcancelled
  | inr hmore =>
    obtain ⟨next, hnext, hrest⟩ := hmore
    exact ⟨next, hnext, a, hrest, hcancelled⟩

omit [DecidableEq G] in
/-- The check of a doomed group goes on to a doomed ancestor or skips the job. -/
theorem check_doomed (g : G) (job : Nat) {ancestor : G} (h : s.Doomed parent ancestor) :
    (∀ k j, (s.check parent g job ancestor).2 ≠ .started k j) ∧
      ∀ k j b, (s.check parent g job ancestor).1 = .checking k j b → s.Doomed parent b := by
  unfold CJobSystem.check
  by_cases hcancelled : (s.groups ancestor).cancelled = true
  · simp [hcancelled]
  · obtain ⟨next, hnext, hdoomed⟩ := h.above (Bool.not_eq_true _ ▸ hcancelled)
    simp only [hcancelled, hnext]
    refine ⟨by simp, fun k j b hb => ?_⟩
    cases hb
    exact hdoomed

omit [DecidableEq G] in
/-- The check is about its own job. -/
theorem check_own (parent : G → Option G) (s : CJobSystem G) (g : G) (job : Nat) (ancestor : G) :
    (∀ k j b, (s.check parent g job ancestor).1 = .checking k j b → k = g ∧ job = j) ∧
      ∀ k j, (s.check parent g job ancestor).2 = .started k j → k = g ∧ job = j := by
  unfold CJobSystem.check
  split
  · exact ⟨by simp, by simp⟩
  · split
    · refine ⟨by simp, fun k j hk => ?_⟩
      cases hk
      exact ⟨rfl, rfl⟩
    · refine ⟨fun k j b hk => ?_, by simp⟩
      cases hk
      exact ⟨rfl, rfl⟩

/-- Once a group is doomed, only the jobs whose check was going on by then can start. -/
structure Stops (parent : G → Option G) (group : G) (checked : Nat → Prop) (s : CJobSystem G) : Prop where
  doomed : s.Doomed parent group
  checks : ∀ job b, .checking group job b ∈ s.runs → checked job ∨ s.Doomed parent b

theorem Stops.step {checked : Nat → Prop} (h : Stops parent group checked s)
    {m : JobMove G} (hst : s.step parent m = some (s', out)) :
    Stops parent group checked s' ∧ ∀ job, out = .started group job → checked job := by
  have hwalks := step_walks hst group
  have hkept : ∀ g, s.Doomed parent g → s'.Doomed parent g := by
    intro g hg
    obtain ⟨a, ha, hcancelled⟩ := hg
    exact ⟨a, ha, hwalks.cancelled a hcancelled⟩
  -- What RunOnePending of the group does next, wherever its check is.
  have hnext : ∀ run ∈ s.runs, (∀ job b, (s.runOne parent run).2.1 = .inl (.checking group job b) →
        checked job ∨ s.Doomed parent b) ∧
      ∀ job, (s.runOne parent run).2.2 = .started group job → checked job := by
    intro run hrun
    cases run with
    | starting g =>
      simp only [CJobSystem.runOne]
      split
      · exact ⟨by simp, by simp⟩
      · exact ⟨by simp, by simp⟩
    | popped g job =>
      by_cases hg : g = group
      · subst hg
        obtain ⟨hstarts, hchecks⟩ := check_doomed g job h.doomed
        exact ⟨fun k b hk => .inr (hchecks g k b (Sum.inl.inj hk)), fun k hk => absurd hk (hstarts g k)⟩
      · obtain ⟨hchecks, hstarts⟩ := check_own parent s g job g
        exact ⟨fun k b hk => absurd (hchecks _ _ _ (Sum.inl.inj hk)).1.symm hg,
          fun k hk => absurd (hstarts _ _ hk).1.symm hg⟩
    | checking g job ancestor =>
      by_cases hg : g = group
      · subst hg
        obtain ⟨hchecks, hstarts⟩ := check_own parent s g job ancestor
        cases h.checks job ancestor hrun with
        | inl hchecked =>
          exact ⟨fun k b hk => .inl ((hchecks _ _ _ (Sum.inl.inj hk)).2 ▸ hchecked),
            fun k hk => (hstarts _ _ hk).2 ▸ hchecked⟩
        | inr hdoomed =>
          obtain ⟨hstarts', hchecks'⟩ := check_doomed g job hdoomed
          exact ⟨fun k b hk => .inr (hchecks' g k b (Sum.inl.inj hk)),
            fun k hk => absurd hk (hstarts' g k)⟩
      · obtain ⟨hchecks, hstarts⟩ := check_own parent s g job ancestor
        exact ⟨fun k b hk => absurd (hchecks _ _ _ (Sum.inl.inj hk)).1.symm hg,
          fun k hk => absurd (hstarts _ _ hk).1.symm hg⟩
    | running g job => simp [CJobSystem.runOne]
    | settling g job => simp [CJobSystem.runOne]
  refine ⟨⟨hkept group h.doomed, fun job b hb => ?_⟩, fun job hout => ?_⟩
  · rcases hwalks.runs _ hb with hold | ⟨g, hnew⟩ | ⟨run, hrun, hmoved⟩
    · exact (h.checks job b hold).imp_right (hkept b)
    · cases hnew
    · exact ((hnext run hrun).1 job b hmoved).imp_right (hkept b)
  · obtain ⟨run, hrun, hstarted⟩ := hwalks.started group job hout
    exact (hnext run hrun).2 job hstarted

end Cancellation

end TgeCore.Threading
