import TgeCore.Threading.ParallelCover

namespace TgeCore.Threading
open Library

section Return
variable {G : Type} [DecidableEq G] {parent : G → Option G} {c : ParallelForCall G} {p p' : ParallelForState G}
  {s s' : CJobSystem G} {js : List (JobSeen G)} {os : List (List UInt32)} {run run' : RunOneAt G} {job i : Nat}

/-- Some steps of the threads bring the calling thread back. -/
def ParallelForState.MayReturn (parent : G → Option G) (c : ParallelForCall G) (p : ParallelForState G) : Prop :=
  ∃ q, (parallelFor parent c).Leads p q ∧ q.caller = .returned

theorem ParallelForState.MayReturn.later (move : ParallelForMove G) {out : List UInt32}
    (hst : c.step parent p move = some (p', out)) (h : p'.MayReturn parent c) : p.MayReturn parent c := by
  obtain ⟨q, hleads, hreturned⟩ := h
  exact ⟨q, .head hst hleads, hreturned⟩

theorem ParallelForState.MayReturn.back (h : p.caller = .returned) : p.MayReturn parent c := ⟨p, .refl p, h⟩

/-- A thread in RunOnePending: in Wait for a group, or of the pool. -/
inductive Holder (G : Type) where
  | call (index : Nat) (group : G)
  | work (worker : Nat) (job : Nat)

def Holder.move : Holder G → JobMove G
  | .call index _ => .call index
  | .work worker _ => .work worker

def Holder.At (s : CJobSystem G) (run : RunOneAt G) : Holder G → Prop
  | .call index group => s.calls[index]? = some (.helping group run)
  | .work worker job => s.workers[worker]? = some (.runner job run)

variable {holder : Holder G}

omit [DecidableEq G] in
theorem Holder.mem_runs (holder : Holder G) (h : holder.At s run) : run ∈ s.runs := by
  cases holder with
  | call index group => exact CJobSystem.mem_runs.mpr (.inl ⟨group, List.mem_of_getElem? h⟩)
  | work worker job => exact CJobSystem.mem_runs.mpr (.inr ⟨job, List.mem_of_getElem? h⟩)

/-- A thread in RunOnePending can always go on. -/
theorem Holder.step (parent : G → Option G) (holder : Holder G) (h : holder.At s run) : ∃ s',
    s.step parent holder.move = some (s', (s.runOne parent run).2.2) ∧
      s'.groups = (s.runOne parent run).1.groups ∧
      ∀ run', (s.runOne parent run).2.1 = .inl run' → holder.At s' run' := by
  have hentry := runOne_entry parent s run run.home
  cases holder with
  | call index group =>
    refine ⟨_, Option.bind_eq_some_iff.mpr ⟨_, h, rfl⟩, rfl, fun run' hnext => ?_⟩
    have hlt : index < s.calls.length := (List.getElem?_eq_some_iff.mp h).1
    simp only [At, CJobSystem.setCall, hentry.calls, hnext, List.getElem?_set_self hlt]
  | work worker job =>
    refine ⟨_, Option.bind_eq_some_iff.mpr ⟨_, h, rfl⟩, rfl, fun run' hnext => ?_⟩
    have hlt : worker < s.workers.length := (List.getElem?_eq_some_iff.mp h).1
    simp only [At, CJobSystem.setWorker, hentry.workers, hnext, List.getElem?_set_self hlt]

omit [DecidableEq G] in
theorem Holder.move_group (holder : Holder G) : holder.move.group = none := by
  cases holder with
  | call index group => rfl
  | work worker job => rfl

/-- A thread that is at no call's beginning goes on. -/
theorem ParallelForState.Sound.go (h : p.Sound parent c js os) {move : JobMove G} {out : JobSeen G}
    (hmove : move.group = none) (hst : p.jobs.step parent move = some (s', out))
    (hnext : ∀ js' os', ({ p with jobs := s' } : ParallelForState G).Sound parent c js' os' →
      ({ p with jobs := s' } : ParallelForState G).MayReturn parent c) : p.MayReturn parent c := by
  have hgroup : move.group ≠ some c.group := by simp [hmove]
  have hcancel : ∀ a, move ≠ .cancel a := by
    rintro a rfl
    cases hmove
  have hthread : c.step parent p (.thread move) = some ({ p with jobs := s' }, p.calls c.group out) := by
    simp only [ParallelForCall.step, if_neg hgroup, hst, Option.map_some]
  exact .later _ hthread (hnext _ _ (h.thread hgroup (fun a _ => hcancel a) hst))

/-- A thread in RunOnePending goes on within the call. -/
theorem ParallelForState.Sound.hold (h : p.Sound parent c js os) (hat : holder.At p.jobs run)
    (hnext : ∀ s' js' os', ({ p with jobs := s' } : ParallelForState G).Sound parent c js' os' →
      s'.groups = (p.jobs.runOne parent run).1.groups →
      (∀ run', (p.jobs.runOne parent run).2.1 = .inl run' → holder.At s' run') →
      ({ p with jobs := s' } : ParallelForState G).MayReturn parent c) : p.MayReturn parent c := by
  obtain ⟨s', hst, hgroups, hrun⟩ := holder.step parent hat
  exact h.go holder.move_group hst fun js' os' hsound => hnext s' js' os' hsound hgroups hrun

/-- A job in hand counts as active. -/
theorem ParallelForState.Sound.active_pos (h : p.Sound parent c js os) (hat : holder.At p.jobs run)
    {stage : JobStage} (hheld : ⟨c.group, stage, job⟩ ∈ run.holds) (hstage : stage = .unchecked ∨ stage = .decided) :
    0 < (p.jobs.groups c.group).activeJobs := by
  have hactive := h.books.activeJobs
  have hpos := List.length_pos_of_mem (CJobSystem.mem_jobsAt (holder.mem_runs hat) hheld)
  cases hstage with
  | inl heq =>
    subst heq
    omega
  | inr heq =>
    subst heq
    omega

/-- Wherever the calling thread is, it may return once fewer jobs of the group are active. -/
def ParallelForState.Fewer (parent : G → Option G) (c : ParallelForCall G) (p : ParallelForState G) (n : Nat) : Prop :=
  ∀ s' js' os', ({ p with jobs := s' } : ParallelForState G).Sound parent c js' os' →
    (s'.groups c.group).activeJobs < n → ({ p with jobs := s' } : ParallelForState G).MayReturn parent c

theorem ParallelForState.Sound.settle (h : p.Sound parent c js os) (hat : holder.At p.jobs (.settling c.group job))
    (hfewer : p.Fewer parent c (p.jobs.groups c.group).activeJobs) : p.MayReturn parent c := by
  have hpos := h.active_pos hat (List.mem_singleton.mpr rfl) (.inr rfl)
  refine h.hold hat fun s' js' os' hsound hgroups _ => hfewer s' js' os' hsound ?_
  simp only [hgroups, CJobSystem.runOne, CJobSystem.groups_setGroup_self]
  omega

theorem ParallelForState.Sound.finish (h : p.Sound parent c js os) (hat : holder.At p.jobs (.running c.group job))
    (hfewer : p.Fewer parent c (p.jobs.groups c.group).activeJobs) : p.MayReturn parent c := by
  refine h.hold hat fun s' js' os' hsound hgroups hnext => ?_
  refine hsound.settle (hnext _ rfl) ?_
  change p.Fewer parent c (s'.groups c.group).activeJobs
  rwa [hgroups]

/-- The check goes up the ancestors to the oldest one. -/
theorem ParallelForState.Sound.check (hparent : WellFounded fun g h => parent h = some g)
    (h : p.Sound parent c js os) {b : G} (hat : holder.At p.jobs (.checking c.group job b))
    (hfewer : p.Fewer parent c (p.jobs.groups c.group).activeJobs) : p.MayReturn parent c := by
  induction b using hparent.induction generalizing p js os with
  | _ b ih =>
    refine h.hold hat fun s' js' os' hsound hgroups hnext => ?_
    have hsame : ({ p with jobs := s' } : ParallelForState G).Fewer parent c (s'.groups c.group).activeJobs := by
      change p.Fewer parent c (s'.groups c.group).activeJobs
      rwa [hgroups]
    have hflag := h.uncancelled.flags b (h.uncancelled.checks job b (holder.mem_runs hat))
    simp only [CJobSystem.runOne, CJobSystem.check, hflag] at hnext
    cases hup : parent b with
    | none =>
      rw [hup] at hnext
      exact hsound.finish (hnext _ rfl) hsame
    | some next =>
      rw [hup] at hnext
      exact ih next hup hsound (hnext _ rfl) hsame

theorem ParallelForState.Sound.decide (hparent : WellFounded fun g h => parent h = some g)
    (h : p.Sound parent c js os) (hat : holder.At p.jobs (.popped c.group job))
    (hfewer : p.Fewer parent c (p.jobs.groups c.group).activeJobs) : p.MayReturn parent c := by
  refine h.hold hat fun s' js' os' hsound hgroups hnext => ?_
  have hsame : ({ p with jobs := s' } : ParallelForState G).Fewer parent c (s'.groups c.group).activeJobs := by
    change p.Fewer parent c (s'.groups c.group).activeJobs
    rwa [hgroups]
  have hflag := h.uncancelled.flags c.group Relation.ReflTransGen.refl
  simp only [CJobSystem.runOne, CJobSystem.check, hflag] at hnext
  cases hup : parent c.group with
  | none =>
    rw [hup] at hnext
    exact hsound.finish (hnext _ rfl) hsame
  | some next =>
    rw [hup] at hnext
    exact hsound.check hparent (hnext _ rfl) hsame

/-- Whatever thread has a job of the group in hand can settle it. -/
theorem ParallelForState.Sound.work (h : p.Sound parent c js os) (holder : Holder G)
    (hparent : WellFounded fun g h => parent h = some g) (hat : holder.At p.jobs run) (hgroup : run.home = c.group)
    (hrun : run ≠ .starting c.group) (hfewer : p.Fewer parent c (p.jobs.groups c.group).activeJobs) :
    p.MayReturn parent c := by
  cases run with
  | starting g => exact absurd (congrArg RunOneAt.starting hgroup) hrun
  | popped g job =>
    obtain rfl : g = c.group := hgroup
    exact h.decide hparent hat hfewer
  | checking g job b =>
    obtain rfl : g = c.group := hgroup
    exact h.check hparent hat hfewer
  | running g job =>
    obtain rfl : g = c.group := hgroup
    exact h.finish hat hfewer
  | settling g job =>
    obtain rfl : g = c.group := hgroup
    exact h.settle hat hfewer

theorem CJobSystem.of_mem_jobsAt {group : G} {stage : JobStage} (hjob : job ∈ s.jobsAt group stage) :
    (∃ call ∈ s.calls, (⟨group, stage, job⟩ : HeldJob G) ∈ call.holds) ∨
      ∃ x ∈ s.workers, (⟨group, stage, job⟩ : HeldJob G) ∈ x.holds := by
  obtain ⟨held, hheld, heq⟩ := List.mem_map.mp hjob
  obtain ⟨hmem, hprops⟩ := List.mem_filter.mp hheld
  obtain ⟨hgroup, hat⟩ : held.group = group ∧ held.stage = stage := by simpa using hprops
  obtain rfl : held = ⟨group, stage, job⟩ := by rw [← hgroup, ← hat, ← heq]
  exact (List.mem_append.mp hmem).imp List.mem_flatMap.mp List.mem_flatMap.mp

omit [DecidableEq G] in
theorem RunOneAt.of_mem_holds {group : G} {stage : JobStage} (h : (⟨group, stage, job⟩ : HeldJob G) ∈ run.holds) :
    run.home = group ∧ run ≠ .starting group ∧ (stage = .unchecked ∨ stage = .decided) := by
  cases run with
  | starting g => cases h
  | popped g k =>
    cases List.mem_singleton.mp h
    exact ⟨rfl, by simp, .inl rfl⟩
  | checking g k b =>
    cases List.mem_singleton.mp h
    exact ⟨rfl, by simp, .inl rfl⟩
  | running g k =>
    cases List.mem_singleton.mp h
    exact ⟨rfl, by simp, .inr rfl⟩
  | settling g k =>
    cases List.mem_singleton.mp h
    exact ⟨rfl, by simp, .inr rfl⟩

/-- A job that is counted and neither pending nor settled is in a thread's hand. -/
theorem CJobSystem.exists_hand {group : G} {stage : JobStage} (hjob : job ∈ s.jobsAt group stage) :
    (∃ (holder : Holder G) (run : RunOneAt G), holder.At s run ∧ run.home = group ∧ run ≠ .starting group) ∨
      (∃ (i : Nat) (a : JobCallAt G), s.calls[i]? = some a ∧ a.submits group) ∨ ∃ a ∈ s.calls, a.cancels group := by
  cases CJobSystem.of_mem_jobsAt hjob with
  | inl hcall =>
    obtain ⟨call, hcall, hin⟩ := hcall
    obtain ⟨index, hindex⟩ := List.mem_iff_getElem?.mp hcall
    cases call with
    | helping g run =>
      obtain ⟨hhome, hstarted, -⟩ := RunOneAt.of_mem_holds hin
      exact .inl ⟨.call index g, run, hindex, hhome, hstarted⟩
    | counted g k priority =>
      cases List.mem_singleton.mp hin
      exact .inr (.inl ⟨index, _, hindex, rfl⟩)
    | dropping g jobs =>
      obtain ⟨k, -, hk⟩ := List.mem_map.mp hin
      cases hk
      exact .inr (.inr ⟨_, hcall, rfl⟩)
    | _ => cases hin
  | inr hwork =>
    obtain ⟨x, hx, hin⟩ := hwork
    obtain ⟨worker, hworker⟩ := List.mem_iff_getElem?.mp hx
    cases x with
    | runner k run =>
      obtain ⟨hhome, hstarted, -⟩ := RunOneAt.of_mem_holds hin
      exact .inl ⟨.work worker k, run, hworker, hhome, hstarted⟩
    | _ => cases hin

/-- In Wait, an active job of the group is pending or in the hand of a thread in RunOnePending. -/
theorem ParallelForState.Sound.active_job (h : p.Sound parent c js os) {call : Nat} (hat : p.caller = .waiting call)
    (hactive : (p.jobs.groups c.group).activeJobs ≠ 0) : (p.jobs.groups c.group).pending ≠ [] ∨
      ∃ (holder : Holder G) (run : RunOneAt G), holder.At p.jobs run ∧ run.home = c.group ∧ run ≠ .starting c.group := by
  have hbooks := h.books.activeJobs
  by_cases hpending : (p.jobs.groups c.group).pending = []
  · right
    have hstage : ∃ stage, p.jobs.jobsAt c.group stage ≠ [] := by
      by_contra hnone
      have hempty : ∀ stage, (p.jobs.jobsAt c.group stage).length = 0 := by
        intro stage
        by_contra hlength
        exact hnone ⟨stage, fun heq => hlength (heq ▸ rfl)⟩
      rw [hpending, hempty, hempty, hempty, hempty] at hbooks
      exact hactive hbooks
    obtain ⟨stage, hstage⟩ := hstage
    obtain ⟨job, hjob⟩ := List.exists_mem_of_ne_nil _ hstage
    rcases CJobSystem.exists_hand hjob with hholder | ⟨i, a, ha, hsubmits⟩ | ⟨a, ha, hcancels⟩
    · exact hholder
    · obtain ⟨chunk, hchunk⟩ := h.submits i a ha hsubmits
      rw [hat] at hchunk
      cases hchunk
    · exact absurd hcancels (h.uncancelled.calls c.group Relation.ReflTransGen.refl a ha)
  · exact .inl hpending

/-- Wait takes a pending job itself. -/
theorem ParallelForState.Sound.help (h : p.Sound parent c js os) (holder : Holder G)
    (hparent : WellFounded fun g h => parent h = some g)
    (hat : holder.At p.jobs (.starting c.group)) (hpending : (p.jobs.groups c.group).pending ≠ [])
    (hfewer : p.Fewer parent c (p.jobs.groups c.group).activeJobs) : p.MayReturn parent c := by
  obtain ⟨job, rest, hjobs⟩ := List.exists_cons_of_ne_nil hpending
  refine h.hold hat fun s' js' os' hsound hgroups hnext => ?_
  simp only [CJobSystem.runOne, hjobs] at hgroups hnext
  refine hsound.decide hparent (hnext _ rfl) ?_
  change p.Fewer parent c (s'.groups c.group).activeJobs
  rwa [hgroups, CJobSystem.groups_setGroup_self]

theorem ParallelForState.Sound.wait (hparent : WellFounded fun g h => parent h = some g) (h : p.Sound parent c js os)
    {call : Nat} (hat : p.caller = .waiting call) (ha : p.jobs.calls[call]? = some (.waiting c.group))
    (hfewer : p.Fewer parent c (p.jobs.groups c.group).activeJobs) : p.MayReturn parent c := by
  have hlt : call < p.jobs.calls.length := (List.getElem?_eq_some_iff.mp ha).1
  by_cases hidle : (p.jobs.groups c.group).activeJobs = 0
  · have hst : p.jobs.step parent (.call call) = some (p.jobs.setCall call .done, .waited c.group) := by
      simp only [CJobSystem.step, ha, Option.bind_some, CJobSystem.callStep, if_pos hidle]
    have hdone : (p.jobs.setCall call .done).calls[call]? = some .done := List.getElem?_set_self hlt
    have hback : c.step parent { p with jobs := p.jobs.setCall call .done } .caller =
        some ({ p with jobs := p.jobs.setCall call .done, caller := .returned }, []) := by
      simp only [ParallelForCall.step, hat, if_pos hdone]
    exact h.go rfl hst fun js' os' _ => .later _ hback (.back rfl)
  · rcases h.active_job hat hidle with hpending | ⟨holder, run, hrun, hhome, hstarted⟩
    · have hst : p.jobs.step parent (.call call) =
          some (p.jobs.setCall call (.helping c.group (.starting c.group)), .nothing) := by
        simp only [CJobSystem.step, ha, Option.bind_some, CJobSystem.callStep, if_neg hidle]
      refine h.go rfl hst fun js' os' hsound => hsound.help (.call call c.group) hparent ?_ hpending hfewer
      exact List.getElem?_set_self hlt
    · exact h.work holder hparent hrun hhome hstarted hfewer

theorem ParallelForState.Sound.pause (hparent : WellFounded fun g h => parent h = some g) (h : p.Sound parent c js os)
    {call : Nat} (hat : p.caller = .waiting call) (ha : p.jobs.calls[call]? = some (.pausing c.group))
    (hfewer : p.Fewer parent c (p.jobs.groups c.group).activeJobs) : p.MayReturn parent c := by
  have hst : p.jobs.step parent (.call call) = some (p.jobs.setCall call (.waiting c.group), .nothing) := by
    simp only [CJobSystem.step, ha, Option.bind_some, CJobSystem.callStep]
  refine h.go rfl hst fun js' os' hsound => hsound.wait hparent hat ?_ hfewer
  exact List.getElem?_set_self (List.getElem?_eq_some_iff.mp ha).1

/-- Wait finds no pending job, or takes one. -/
theorem ParallelForState.Sound.pop (hparent : WellFounded fun g h => parent h = some g) (h : p.Sound parent c js os)
    {call : Nat} (hat : p.caller = .waiting call)
    (ha : p.jobs.calls[call]? = some (.helping c.group (.starting c.group)))
    (hfewer : p.Fewer parent c (p.jobs.groups c.group).activeJobs) : p.MayReturn parent c := by
  by_cases hpending : (p.jobs.groups c.group).pending = []
  · have hst : p.jobs.step parent (.call call) = some (p.jobs.setCall call (.pausing c.group), .nothing) := by
      simp only [CJobSystem.step, ha, Option.bind_some, CJobSystem.callStep, CJobSystem.runOne, hpending]
    refine h.go rfl hst fun js' os' hsound => hsound.pause hparent hat ?_ hfewer
    exact List.getElem?_set_self (List.getElem?_eq_some_iff.mp ha).1
  · exact h.help (.call call c.group) hparent ha hpending hfewer

/-- The call of Wait may return, with however many jobs of the group active. -/
theorem ParallelForState.Sound.waiting (hparent : WellFounded fun g h => parent h = some g)
    (h : p.Sound parent c js os) {call : Nat} (hat : p.caller = .waiting call) : p.MayReturn parent c := by
  induction hn : (p.jobs.groups c.group).activeJobs using Nat.strong_induction_on generalizing p js os with
  | _ n ih =>
    have hfewer : p.Fewer parent c (p.jobs.groups c.group).activeJobs := fun s' js' os' hsound hlt =>
      ih _ (hn ▸ hlt) hsound hat rfl
    have hplaced := h.placed
    unfold Placed at hplaced
    rw [hat] at hplaced
    obtain ⟨-, -, a, ha, hwaits⟩ := hplaced
    cases hwaits with
    | inl hwaits =>
      cases a with
      | waiting g =>
        obtain rfl : g = c.group := hwaits
        exact h.wait hparent hat ha hfewer
      | helping g run =>
        obtain ⟨rfl, hhome⟩ : g = c.group ∧ run.home = c.group := hwaits
        by_cases hstarting : run = .starting c.group
        · subst hstarting
          exact h.pop hparent hat ha hfewer
        · exact h.work (.call call c.group) hparent ha hhome hstarting hfewer
      | pausing g =>
        obtain rfl : g = c.group := hwaits
        exact h.pause hparent hat ha hfewer
      | _ => exact hwaits.elim
    | inr hdone =>
      obtain ⟨rfl, -⟩ := hdone
      have hback : c.step parent p .caller = some ({ p with caller := .returned }, []) := by
        simp only [ParallelForCall.step, hat, if_pos ha]
      exact .later _ hback (.back rfl)

/-- How many steps a SubmitJob has to go. -/
def JobCallAt.left : JobCallAt G → Nat
  | .submitting _ _ => 5
  | .counted _ _ _ => 4
  | .scheduling _ _ => 3
  | .executing _ _ _ => 2
  | .notifying _ => 1
  | _ => 0

/-- Nothing holds a SubmitJob up. -/
theorem JobCallAt.inSubmit_step (parent : G → Option G) (s : CJobSystem G) (i : Nat) {a : JobCallAt G}
    (hin : a.inSubmit) (hlive : a ≠ .done) : ∃ s' out b, s.callStep parent i a = some (s', out) ∧
      s'.calls = s.calls.set i b ∧ b.inSubmit ∧ b.left < a.left := by
  cases a with
  | submitting g priority => exact ⟨_, _, _, rfl, rfl, trivial, by simp [left]⟩
  | counted g k priority => exact ⟨_, _, _, rfl, rfl, trivial, by simp [left]⟩
  | scheduling body priority => exact ⟨_, _, _, rfl, rfl, trivial, by simp [left]⟩
  | executing k body priority => exact ⟨_, _, _, rfl, rfl, trivial, by simp [left]⟩
  | notifying k => exact ⟨_, _, _, rfl, rfl, trivial, by simp [left]⟩
  | done => exact absurd rfl hlive
  | _ => exact hin.elim

/-- The SubmitJob call in progress may end. -/
theorem ParallelForState.Sound.submitted (h : p.Sound parent c js os) {chunk : UInt32} {call : Nat}
    (hat : p.caller = .submitted chunk call)
    (hnext : ∀ s' js' os', ({ p with jobs := s', caller := .submitting (chunk + 1) } : ParallelForState G).Sound parent c js' os' →
      ({ p with jobs := s', caller := .submitting (chunk + 1) } : ParallelForState G).MayReturn parent c) :
    p.MayReturn parent c := by
  have hplaced := h.placed
  unfold Placed at hplaced
  rw [hat] at hplaced
  obtain ⟨-, -, -, a, ha, hin⟩ := hplaced
  induction hleft : a.left using Nat.strong_induction_on generalizing p js os a with
  | _ n ih =>
    by_cases hdone : a = .done
    · subst hdone
      have hst : c.step parent p .caller = some ({ p with caller := .submitting (chunk + 1) }, []) := by
        simp only [ParallelForCall.step, hat, if_pos ha]
      obtain ⟨js', hsound⟩ := h.caller hst
      exact .later _ hst (hnext _ _ _ hsound)
    · obtain ⟨s', out, b, hcall, hcalls, hstill, hless⟩ := JobCallAt.inSubmit_step parent p.jobs call hin hdone
      have hst : p.jobs.step parent (.call call) = some (s', out) := by
        simp only [CJobSystem.step, ha, Option.bind_some, hcall]
      refine h.go rfl hst fun js' os' hsound => ih b.left (hleft ▸ hless) hsound hat hnext b ?_ hstill rfl
      change s'.calls[call]? = some b
      rw [hcalls]
      exact List.getElem?_set_self (List.getElem?_eq_some_iff.mp ha).1

/-- The loop over the chunks may end. -/
theorem ParallelForState.Sound.submitting (hparent : WellFounded fun g h => parent h = some g)
    (h : p.Sound parent c js os) {chunk : UInt32} (hat : p.caller = .submitting chunk) : p.MayReturn parent c := by
  induction hleft : c.numChunks.toNat - chunk.toNat using Nat.strong_induction_on generalizing p js os chunk with
  | _ n ih =>
    by_cases hmore : chunk < c.numChunks
    · have hst : c.step parent p .caller = some ({
          jobs := { p.jobs with calls := p.jobs.calls ++ [.submitting c.group .normal] }
          caller := .submitted chunk p.jobs.calls.length
          captured := p.captured ++ [c.chunkBounds chunk] }, []) := by
        simp only [ParallelForCall.step, hat, if_pos hmore]
        rfl
      obtain ⟨js', hsound⟩ := h.caller hst
      have hlt := UInt32.lt_iff_toNat_lt.mp hmore
      have hchunks := c.numChunks.toNat_lt
      have hnext : (chunk + 1).toNat = chunk.toNat + 1 := by
        rw [UInt32.toNat_add, show (1 : UInt32).toNat = 1 from rfl, Nat.mod_eq_of_lt (by omega)]
      refine .later _ hst (hsound.submitted rfl fun s' js'' os' hthen => ih _ ?_ hthen rfl rfl)
      omega
    · have hst : c.step parent p .caller = some ({ p with
          jobs := { p.jobs with calls := p.jobs.calls ++ [.waiting c.group] }
          caller := .waiting p.jobs.calls.length }, []) := by
        simp only [ParallelForCall.step, hat, if_neg hmore]
        rfl
      obtain ⟨js', hsound⟩ := h.caller hst
      exact .later _ hst (hsound.waiting hparent rfl)

/-- A call of ParallelFor may return from wherever it is. -/
theorem ParallelForState.Sound.mayReturn (hparent : WellFounded fun g h => parent h = some g)
    (h : p.Sound parent c js os) : p.MayReturn parent c := by
  cases hat : p.caller with
  | called =>
    by_cases hmany : 1 < c.numChunks
    · have hst : c.step parent p .caller = some ({ p with caller := .submitting 0 }, []) := by
        simp only [ParallelForCall.step, hat, if_pos hmany]
      obtain ⟨js', hsound⟩ := h.caller hst
      exact .later _ hst (hsound.submitting hparent rfl)
    · have hst : c.step parent p .caller = some ({ p with caller := .returned }, indices c.begin c.stop) := by
        simp only [ParallelForCall.step, hat, if_neg hmany]
      exact .later _ hst (.back rfl)
  | submitting chunk => exact h.submitting hparent hat
  | submitted chunk call => exact h.submitted hat fun s' js' os' hsound => hsound.submitting hparent rfl
  | waiting call => exact h.waiting hparent hat
  | returned => exact .back hat

end Return

section Covers
variable {G : Type} [DecidableEq G] {parent : G → Option G} {c : ParallelForCall G} {p : ParallelForState G}
  {moves : List (ParallelForMove G)} {os : List (List UInt32)}

/-- What a call of ParallelFor does, at any moment among the other threads: it splits its
range exactly, gives no index to the function twice and none from outside of the range,
has given each of them when it is back, and can always come back. -/
structure ParallelForState.Covers (parent : G → Option G) (c : ParallelForCall G) (os : List (List UInt32))
    (p : ParallelForState G) : Prop where
  splits : 1 < c.numChunks → c.Splits
  captured : p.captured <+: c.chunks
  atMostOnce : ∀ i, os.flatten.count i ≤ if c.begin ≤ i ∧ i < c.stop then 1 else 0
  exactlyOnce : p.caller = .returned → ∀ i, os.flatten.count i = if c.begin ≤ i ∧ i < c.stop then 1 else 0
  finished : p.caller = .returned → ∀ job, .running c.group job ∉ p.jobs.runs
  returns : (WellFounded fun g h => parent h = some g) → p.MayReturn parent c

theorem ParallelForState.Sound.covers {js : List (JobSeen G)} (h : p.Sound parent c js os)
    (hordered : c.begin ≤ c.stop) : p.Covers parent c os := by
  refine ⟨c.splits hordered, ?_, fun i => ?_, fun hback i => ?_, fun hback => (h.returned hordered hback).2,
    h.mayReturn⟩
  · rw [h.captured, ParallelForCall.chunks]
    have hle : p.captured.length ≤ c.numChunks.toNat := by
      by_cases hmany : 1 < c.numChunks
      · exact h.captured_le hmany
      · rw [h.captured_none hmany]
        exact Nat.zero_le _
    refine List.IsPrefix.map _ (List.prefix_iff_eq_take.mpr ?_)
    rw [List.length_range, List.take_range, Nat.min_eq_left hle]
  · exact count_indices i ▸ h.count_le hordered i
  · rw [(h.returned hordered hback).1.count_eq, count_indices]

/-- Every call of ParallelFor that nobody cancels, whatever the threads of the pool and all
other callers do. -/
theorem parallelFor_covers (hordered : c.begin ≤ c.stop)
    (hcancel : ∀ a, Ancestor parent c.group a → .thread (.cancel a) ∉ moves)
    (hrun : (parallelFor parent c).run c.start moves = some (p, os)) : p.Covers parent c os := by
  obtain ⟨js, hsound⟩ := (c.start_sound parent).run hcancel hrun
  exact hsound.covers hordered

/-- Two workers' worth of chunks over three indices, all run by the calling thread. -/
def threeIndices : ParallelForCall Nat := { group := 0, begin := 3, stop := 6, grainSize := 1, numThreads := 2 }

def threeIndicesMoves : List (ParallelForMove Nat) :=
  List.replicate 2 ParallelForMove.caller ++ List.replicate 5 (ParallelForMove.thread (.call 0)) ++
    List.replicate 2 ParallelForMove.caller ++ List.replicate 5 (ParallelForMove.thread (.call 1)) ++
    List.replicate 2 ParallelForMove.caller ++ List.replicate 11 (ParallelForMove.thread (.call 2)) ++
    [ParallelForMove.caller]

theorem parallelFor_covers_three : ∃ (p : ParallelForState Nat) (os : List (List UInt32)),
    p.caller = .returned ∧ p.captured = [(3, 4), (4, 6)] ∧ p.Covers (fun _ => none) threeIndices os := by
  have hends : ((parallelFor (fun _ => none) threeIndices).run threeIndices.start threeIndicesMoves).map
      (fun next => (next.1.caller, next.1.captured)) = some (.returned, [(3, 4), (4, 6)]) := rfl
  obtain ⟨⟨p, os⟩, hrun, heq⟩ := Option.map_eq_some_iff.mp hends
  obtain ⟨hback, hcaptured⟩ := Prod.mk.inj heq
  exact ⟨p, os, hback, hcaptured, parallelFor_covers (by decide) (fun a _ => by simp [threeIndicesMoves]) hrun⟩

end Covers

end TgeCore.Threading
