import TgeCore.Threading.JobGroups

namespace TgeCore.Threading
open Library

section Jobs
variable {G : Type} [DecidableEq G] {parent : G → Option G} {s s' : CJobSystem G} {group : G} {out : JobSeen G}

/-- A SubmitJob of the group that has not counted its job. -/
def JobCallAt.asks (group : G) : JobCallAt G → Nat
  | .submitting g _ => if g = group then 1 else 0
  | _ => 0

def RunOneAt.home : RunOneAt G → G
  | .starting group => group
  | .popped group _ => group
  | .checking group _ _ => group
  | .running group _ => group
  | .settling group _ => group

/-- A Wait for the group that has not returned. -/
def JobCallAt.waits (group : G) : JobCallAt G → Prop
  | .waiting g => g = group
  | .helping g run => g = group ∧ run.home = group
  | .pausing g => g = group
  | _ => False

/-- A SubmitJob of the group that has not pushed its job. -/
def JobCallAt.submits (group : G) : JobCallAt G → Prop
  | .submitting g _ => g = group
  | .counted g _ _ => g = group
  | _ => False

/-- A SubmitJob of any group, up to its end. -/
def JobCallAt.inSubmit : JobCallAt G → Prop
  | .submitting _ _ | .counted _ _ _ | .scheduling _ _ | .executing _ _ _ | .notifying _ | .done => True
  | _ => False

/-- A Cancel of the group that has not returned. -/
def JobCallAt.cancels (group : G) : JobCallAt G → Prop
  | .cancelling g => g = group
  | .swapping g => g = group
  | .dropping g _ => g = group
  | _ => False

/-- No Cancel of the group or of an ancestor has begun. -/
structure Uncancelled (parent : G → Option G) (group : G) (s : CJobSystem G) : Prop where
  flags : ∀ a, Ancestor parent group a → (s.groups a).cancelled = false
  calls : ∀ a, Ancestor parent group a → ∀ c ∈ s.calls, ¬ c.cancels a
  checks : ∀ job b, .checking group job b ∈ s.runs → Ancestor parent group b

/-- What a call's step does that a group without Cancel looks at. -/
structure Called (parent : G → Option G) (s s' : CJobSystem G) (group : G) (i : Nat) (c c' : JobCallAt G)
    (out : JobSeen G) : Prop where
  calls : s'.calls = s.calls.set i c'
  live : c ≠ .done
  asks : c.asks group = c'.asks group + (out.jobs group .submitted).length
  submits : c'.submits group → c.submits group
  inSubmit : c.inSubmit → c'.inSubmit
  waits : c.waits group → c'.waits group ∨ c' = .done ∧ (s.groups group).activeJobs = 0
  cancels : ∀ a, c'.cancels a → c.cancels a
  flags : ∀ a, (s'.groups a).cancelled = (s.groups a).cancelled ∨ c.cancels a
  dropped : out.jobs group .dropped = [] ∨ c.cancels group
  skipped : out.jobs group .skipped = [] ∨ ∃ g run, c = .helping g run ∧ out = (s.runOne parent run).2.2

/-- A step that only moves a call on. -/
theorem Called.moves {i : Nat} {c c' : JobCallAt G}
    (hout : out.jobs group .submitted = [] ∧ out.jobs group .dropped = [] ∧ out.jobs group .skipped = [])
    (hcalls : s'.calls = s.calls.set i c')
    (hflags : ∀ a, (s'.groups a).cancelled = (s.groups a).cancelled) (hlive : c ≠ .done)
    (hasks : c.asks group = c'.asks group) (hsubmits : c'.submits group → c.submits group)
    (hin : c.inSubmit → c'.inSubmit)
    (hwaits : c.waits group → c'.waits group ∨ c' = .done ∧ (s.groups group).activeJobs = 0)
    (hcancels : ∀ a, c'.cancels a → c.cancels a) : Called parent s s' group i c c' out :=
  ⟨hcalls, hlive, by rw [hasks, hout.1, List.length_nil, Nat.add_zero], hsubmits, hin, hwaits, hcancels,
    fun a => .inl (hflags a), .inl hout.2.1, .inl hout.2.2⟩

theorem CJobSystem.setGroup_cancelled (s : CJobSystem G) (g : G) (state : CJobGroup.SState)
    (hsame : state.cancelled = (s.groups g).cancelled) (a : G) :
    ((s.setGroup g state).groups a).cancelled = (s.groups a).cancelled := by
  by_cases ha : a = g
  · subst ha
    rw [groups_setGroup_self, hsame]
  · rw [groups_setGroup_of_ne s state ha]

/-- RunOnePending leaves all flags alone and drops nothing. -/
theorem runOne_flags (parent : G → Option G) (s : CJobSystem G) (group : G) (run : RunOneAt G) :
    (∀ a, ((s.runOne parent run).1.groups a).cancelled = (s.groups a).cancelled) ∧
      (s.runOne parent run).2.2.jobs group .dropped = [] := by
  have hcheck : ∀ g job ancestor, (s.check parent g job ancestor).2.jobs group .dropped = [] := by
    intro g job ancestor
    unfold CJobSystem.check
    split
    · simp [JobSeen.jobs]
    · split
      · simp [JobSeen.jobs]
      · simp [JobSeen.jobs]
  cases run with
  | starting g =>
    simp only [CJobSystem.runOne]
    split
    · exact ⟨fun a => rfl, rfl⟩
    · exact ⟨s.setGroup_cancelled g _ rfl, rfl⟩
  | popped g job => exact ⟨fun a => rfl, hcheck g job g⟩
  | checking g job ancestor => exact ⟨fun a => rfl, hcheck g job ancestor⟩
  | running g job => exact ⟨fun a => rfl, rfl⟩
  | settling g job => exact ⟨s.setGroup_cancelled g _ rfl, by simp [CJobSystem.runOne, JobSeen.jobs]⟩

/-- RunOnePending stays with its group. -/
theorem runOne_group (parent : G → Option G) (s : CJobSystem G) {run run' : RunOneAt G}
    (hnext : (s.runOne parent run).2.1 = .inl run') : run'.home = run.home := by
  have hcheck : ∀ g job ancestor, (s.check parent g job ancestor).1.home = g := by
    intro g job ancestor
    unfold CJobSystem.check
    split
    · rfl
    · split
      · rfl
      · rfl
  cases run with
  | starting g =>
    simp only [CJobSystem.runOne] at hnext
    split at hnext
    · cases hnext
    · cases hnext
      rfl
  | popped g job =>
    cases hnext
    exact hcheck g job g
  | checking g job ancestor =>
    cases hnext
    exact hcheck g job ancestor
  | running g job =>
    cases hnext
    rfl
  | settling g job => cases hnext

theorem submitting_called {i : Nat} {g : G} {priority : EJobPriority}
    (hst : s.callStep parent i (.submitting g priority) = some (s', out))
    (group : G) : ∃ c', Called parent s s' group i (.submitting g priority) c' out := by
  cases hst
  refine ⟨_, rfl, by simp, ?_, id, id, False.elim, fun a => False.elim,
    fun a => .inl (s.setGroup_cancelled g _ (by rfl) a), .inl (by simp [JobSeen.jobs]), .inl (by simp [JobSeen.jobs])⟩
  by_cases hg : g = group
  · simp [JobCallAt.asks, JobSeen.jobs, hg]
  · simp [JobCallAt.asks, JobSeen.jobs, hg]

theorem waiting_called {i : Nat} {g : G} (hst : s.callStep parent i (.waiting g) = some (s', out))
    (group : G) : ∃ c', Called parent s s' group i (.waiting g) c' out := by
  simp only [CJobSystem.callStep] at hst
  split at hst
  · rename_i hnone
    cases hst
    refine ⟨_, rfl, by simp, rfl, False.elim, False.elim, fun hg => .inr ⟨rfl, ?_⟩, fun a => False.elim,
      fun a => .inl rfl, .inl rfl, .inl rfl⟩
    exact (show g = group from hg) ▸ hnone
  · cases hst
    exact ⟨_, .moves ⟨rfl, rfl, rfl⟩ rfl (fun a => rfl) (by simp) rfl False.elim False.elim (fun hg => .inl ⟨hg, hg⟩)
      fun a => False.elim⟩

theorem helping_called {i : Nat} {g : G} {run : RunOneAt G}
    (hst : s.callStep parent i (.helping g run) = some (s', out))
    (group : G) : ∃ c', Called parent s s' group i (.helping g run) c' out := by
  simp only [CJobSystem.callStep, Option.some.injEq, Prod.mk.injEq] at hst
  obtain ⟨rfl, rfl⟩ := hst
  have hentry := runOne_entry parent s run group
  obtain ⟨hflags, hdropped⟩ := runOne_flags parent s group run
  refine ⟨_, congrArg (List.set · i _) hentry.calls, by simp, ?_, ?_, False.elim, ?_, ?_,
    fun a => .inl (hflags a), .inl hdropped, .inr ⟨g, run, rfl, rfl⟩⟩
  · rw [hentry.none]
    split
    all_goals rfl
  · split
    all_goals exact False.elim
  · intro hg
    split
    · rename_i run' hnext
      exact .inl ⟨hg.1, (runOne_group parent s hnext).trans hg.2⟩
    · exact .inl hg.1
    · exact .inl hg.1
  · intro a
    split
    all_goals exact False.elim

theorem cancelling_called {i : Nat} {g : G} (hst : s.callStep parent i (.cancelling g) = some (s', out))
    (group : G) : ∃ c', Called parent s s' group i (.cancelling g) c' out := by
  cases hst
  refine ⟨_, rfl, by simp, rfl, False.elim, False.elim, False.elim, fun a ha => ha, fun a => ?_, .inl rfl, .inl rfl⟩
  by_cases ha : a = g
  · exact .inr ha.symm
  · exact .inl (congrArg CJobGroup.SState.cancelled (s.groups_setGroup_of_ne _ ha))

theorem swapping_called {i : Nat} {g : G} (hst : s.callStep parent i (.swapping g) = some (s', out))
    (group : G) : ∃ c', Called parent s s' group i (.swapping g) c' out := by
  cases hst
  refine ⟨_, rfl, by simp, ?_, ?_, False.elim, False.elim, ?_,
    fun a => .inl (s.setGroup_cancelled g _ (by rfl) a), ?_, .inl (by simp [JobSeen.jobs])⟩
  · split
    all_goals simp [JobCallAt.asks, JobSeen.jobs]
  · split
    all_goals exact False.elim
  · intro a
    split
    · exact False.elim
    · exact id
  · by_cases hg : g = group
    · exact .inr hg
    · exact .inl (by simp [JobSeen.jobs, hg])

theorem dropping_called {i : Nat} {g : G} {jobs : List Nat}
    (hst : s.callStep parent i (.dropping g jobs) = some (s', out))
    (group : G) : ∃ c', Called parent s s' group i (.dropping g jobs) c' out := by
  cases hst
  exact ⟨_, rfl, by simp, by simp [JobCallAt.asks, JobSeen.jobs], False.elim, False.elim, False.elim,
    fun a => False.elim, fun a => .inl (s.setGroup_cancelled g _ (by rfl) a), .inl (by simp [JobSeen.jobs]),
    .inl (by simp [JobSeen.jobs])⟩

theorem locking_called {i : Nat} {before : List Nat} (hst : s.callStep parent i (.locking before) = some (s', out))
    (group : G) : ∃ c', Called parent s s' group i (.locking before) c' out := by
  simp only [CJobSystem.callStep] at hst
  split at hst
  · cases hst
  · cases hst
    exact ⟨_, .moves ⟨rfl, rfl, rfl⟩ rfl (fun a => rfl)
      (by simp) rfl False.elim False.elim False.elim fun a => False.elim⟩

theorem loadingPending_called {i : Nat} {before : List Nat}
    (hst : s.callStep parent i (.loadingPending before) = some (s', out))
    (group : G) : ∃ c', Called parent s s' group i (.loadingPending before) c' out := by
  simp only [CJobSystem.callStep] at hst
  split at hst
  all_goals
    cases hst
    exact ⟨_, .moves ⟨rfl, rfl, rfl⟩ rfl (fun a => rfl)
      (by simp) rfl False.elim False.elim False.elim fun a => False.elim⟩

theorem loadingActive_called {i : Nat} {before : List Nat}
    (hst : s.callStep parent i (.loadingActive before) = some (s', out))
    (group : G) : ∃ c', Called parent s s' group i (.loadingActive before) c' out := by
  simp only [CJobSystem.callStep] at hst
  split at hst
  all_goals
    cases hst
    exact ⟨_, .moves ⟨rfl, rfl, rfl⟩ rfl (fun a => rfl)
      (by simp) rfl False.elim False.elim False.elim fun a => False.elim⟩

theorem callStep_called {i : Nat} {c : JobCallAt G} (hst : s.callStep parent i c = some (s', out)) (group : G) :
    ∃ c', Called parent s s' group i c c' out := by
  cases c with
  | submitting g priority => exact submitting_called hst group
  | counted g job priority =>
    cases hst
    exact ⟨_, .moves ⟨rfl, rfl, rfl⟩ rfl (s.setGroup_cancelled g _ (by rfl))
      (by simp) rfl False.elim id False.elim fun a => False.elim⟩
  | scheduling body priority =>
    cases hst
    exact ⟨_, .moves ⟨rfl, rfl, rfl⟩ rfl (fun a => rfl) (by simp) rfl False.elim id False.elim fun a => False.elim⟩
  | executing job body priority =>
    cases hst
    exact ⟨_, .moves ⟨rfl, rfl, rfl⟩ rfl (fun a => rfl) (by simp) rfl False.elim id False.elim fun a => False.elim⟩
  | notifying job =>
    cases hst
    exact ⟨_, .moves ⟨rfl, rfl, rfl⟩ rfl (fun a => rfl) (by simp) rfl False.elim id False.elim fun a => False.elim⟩
  | waiting g => exact waiting_called hst group
  | helping g run => exact helping_called hst group
  | pausing g =>
    cases hst
    exact ⟨_, .moves ⟨rfl, rfl, rfl⟩ rfl (fun a => rfl) (by simp) rfl False.elim False.elim .inl fun a => False.elim⟩
  | cancelling g => exact cancelling_called hst group
  | swapping g => exact swapping_called hst group
  | dropping g jobs => exact dropping_called hst group
  | locking before => exact locking_called hst group
  | loadingPending before => exact loadingPending_called hst group
  | loadingActive before => exact loadingActive_called hst group
  | done => cases hst

/-- A thread of the pool changes no call and no flag, submits nothing and drops nothing. -/
structure Worked (parent : G → Option G) (s s' : CJobSystem G) (group : G) (x : WorkerAt G) (out : JobSeen G) :
    Prop where
  calls : s'.calls = s.calls
  flags : ∀ a, (s'.groups a).cancelled = (s.groups a).cancelled
  submitted : out.jobs group .submitted = []
  dropped : out.jobs group .dropped = []
  skipped : out.jobs group .skipped = [] ∨ ∃ job run, x = .runner job run ∧ out = (s.runOne parent run).2.2

theorem workStep_worked {i : Nat} {x : WorkerAt G} (hst : s.workStep parent i x = some (s', out)) (group : G) :
    Worked parent s s' group x out := by
  cases x with
  | idle =>
    simp only [CJobSystem.workStep] at hst
    split at hst
    · cases hst
      exact ⟨rfl, fun a => rfl, rfl, rfl, .inl rfl⟩
    · split at hst
      · cases hst
        exact ⟨rfl, fun a => rfl, rfl, rfl, .inl rfl⟩
      · cases hst
  | runner job run =>
    simp only [CJobSystem.workStep, Option.some.injEq, Prod.mk.injEq] at hst
    obtain ⟨rfl, rfl⟩ := hst
    have hentry := runOne_entry parent s run group
    obtain ⟨hflags, hdropped⟩ := runOne_flags parent s group run
    exact ⟨hentry.calls, hflags, hentry.none, hdropped, .inr ⟨job, run, rfl, rfl⟩⟩
  | finishing job =>
    simp only [CJobSystem.workStep] at hst
    split at hst
    · cases hst
    · cases hst
      exact ⟨rfl, fun a => rfl, rfl, rfl, .inl rfl⟩
  | exited => cases hst
  | _ =>
    cases hst
    exact ⟨rfl, fun a => rfl, rfl, rfl, .inl rfl⟩

/-- A call of SubmitJob of the group. -/
def JobMove.asks (group : G) : JobMove G → Nat
  | .submit g _ => if g = group then 1 else 0
  | _ => 0

/-- What a step does, by the thread that makes it. -/
inductive Stepped (parent : G → Option G) (s s' : CJobSystem G) (group : G) (out : JobSeen G) : JobMove G → Prop
  | begins (m : JobMove G) (c : JobCallAt G) (hbegin : s.begin c = some (s', out)) (asks : c.asks group = m.asks group)
      (submits : c.submits group → ∃ priority, m = .submit group priority)
      (cancels : ∀ a, c.cancels a → m = .cancel a) : Stepped parent s s' group out m
  | goes (i : Nat) (c c' : JobCallAt G) (hc : s.calls[i]? = some c) (called : Called parent s s' group i c c' out) :
      Stepped parent s s' group out (.call i)
  | works (i : Nat) (x : WorkerAt G) (hx : s.workers[i]? = some x) (worked : Worked parent s s' group x out) :
      Stepped parent s s' group out (.work i)
  | terminates (hst : s' = { s with shouldTerminate := true }) (hout : out = .nothing) :
      Stepped parent s s' group out .terminate

theorem step_stepped {m : JobMove G} (hst : s.step parent m = some (s', out)) (group : G) :
    Stepped parent s s' group out m := by
  cases m with
  | submit g priority => exact .begins _ _ hst rfl (fun hg => ⟨priority, hg ▸ rfl⟩) fun a => False.elim
  | wait g => exact .begins _ _ hst rfl False.elim fun a => False.elim
  | cancel g => exact .begins _ _ hst rfl False.elim fun a ha => ha ▸ rfl
  | schedule priority => exact .begins _ _ hst rfl False.elim fun a => False.elim
  | waitForAllJobs => exact .begins _ _ hst rfl False.elim fun a => False.elim
  | terminate =>
    cases hst
    exact .terminates rfl rfl
  | call index =>
    obtain ⟨c, hc, hst⟩ := Option.bind_eq_some_iff.mp hst
    obtain ⟨c', hcalled⟩ := callStep_called hst group
    exact .goes index c c' hc hcalled
  | work worker =>
    obtain ⟨x, hx, hst⟩ := Option.bind_eq_some_iff.mp hst
    exact .works worker x hx (workStep_worked hst group)

/-- A check that goes up uncancelled ancestors skips nothing. -/
theorem Uncancelled.check (h : Uncancelled parent group s) (job : Nat) {ancestor : G}
    (ha : Ancestor parent group ancestor) :
    (s.check parent group job ancestor).2.jobs group .skipped = [] ∧
      ∀ k b, (s.check parent group job ancestor).1 = .checking group k b → Ancestor parent group b := by
  unfold CJobSystem.check
  rw [h.flags ancestor ha, if_neg Bool.false_ne_true]
  split
  · simp [JobSeen.jobs]
  · rename_i next hnext
    refine ⟨rfl, fun k b hb => ?_⟩
    cases hb
    exact ha.tail hnext

theorem check_other (parent : G → Option G) (s : CJobSystem G) {g : G} (hg : g ≠ group) (job : Nat) (ancestor : G) :
    (s.check parent g job ancestor).2.jobs group .skipped = [] ∧
      ∀ k b, (s.check parent g job ancestor).1 ≠ .checking group k b := by
  unfold CJobSystem.check
  split
  · simp [JobSeen.jobs, hg]
  · split
    · simp [JobSeen.jobs]
    · simp [JobSeen.jobs, hg]

theorem Uncancelled.runOne (h : Uncancelled parent group s) {run : RunOneAt G} (hrun : run ∈ s.runs) :
    (s.runOne parent run).2.2.jobs group .skipped = [] ∧
      ∀ job b, (s.runOne parent run).2.1 = .inl (.checking group job b) → Ancestor parent group b := by
  cases run with
  | starting g =>
    simp only [CJobSystem.runOne]
    split
    · simp [JobSeen.jobs]
    · simp [JobSeen.jobs]
  | popped g job =>
    by_cases hg : g = group
    · subst hg
      obtain ⟨hskipped, hnext⟩ := h.check job Relation.ReflTransGen.refl
      exact ⟨hskipped, fun k b hk => hnext k b (Sum.inl.inj hk)⟩
    · obtain ⟨hskipped, hnext⟩ := check_other parent s hg job g
      exact ⟨hskipped, fun k b hk => absurd (Sum.inl.inj hk) (hnext k b)⟩
  | checking g job ancestor =>
    by_cases hg : g = group
    · subst hg
      obtain ⟨hskipped, hnext⟩ := h.check job (h.checks job ancestor hrun)
      exact ⟨hskipped, fun k b hk => hnext k b (Sum.inl.inj hk)⟩
    · obtain ⟨hskipped, hnext⟩ := check_other parent s hg job ancestor
      exact ⟨hskipped, fun k b hk => absurd (Sum.inl.inj hk) (hnext k b)⟩
  | running g job => simp [CJobSystem.runOne, JobSeen.jobs]
  | settling g job => simp [CJobSystem.runOne, JobSeen.jobs]

/-- Without a Cancel of the group or of an ancestor no job is skipped and none is dropped. -/
theorem Uncancelled.step (h : Uncancelled parent group s) {m : JobMove G}
    (hm : ∀ a, Ancestor parent group a → m ≠ .cancel a) (hst : s.step parent m = some (s', out)) :
    Uncancelled parent group s' ∧ out.jobs group .skipped = [] ∧ out.jobs group .dropped = [] := by
  have hchecks : ∀ job b, .checking group job b ∈ s'.runs → Ancestor parent group b := by
    intro job b hb
    rcases (step_walks hst group).runs _ hb with hold | ⟨g, hnew⟩ | ⟨run, hrun, hmoved⟩
    · exact h.checks job b hold
    · cases hnew
    · exact (h.runOne hrun).2 job b hmoved
  cases step_stepped hst group with
  | begins _ c hbegin asks submits cancels =>
    cases hbegin
    refine ⟨⟨h.flags, fun a ha call hcall hcancel => ?_, hchecks⟩, rfl, rfl⟩
    cases List.mem_append.mp hcall with
    | inl hold => exact h.calls a ha call hold hcancel
    | inr hnew =>
      obtain rfl := List.mem_singleton.mp hnew
      exact hm a ha (cancels a hcancel)
  | goes i c c' hc called =>
    have hmem : c ∈ s.calls := List.mem_of_getElem? hc
    refine ⟨⟨fun a ha => ?_, fun a ha call hcall hcancel => ?_, hchecks⟩, ?_, ?_⟩
    · rw [(called.flags a).resolve_right (h.calls a ha c hmem), h.flags a ha]
    · rw [called.calls] at hcall
      cases List.mem_or_eq_of_mem_set hcall with
      | inl hold => exact h.calls a ha call hold hcancel
      | inr heq => exact h.calls a ha c hmem (called.cancels a (heq ▸ hcancel))
    · cases called.skipped with
      | inl hnone => exact hnone
      | inr hhelp =>
        obtain ⟨g, run, rfl, rfl⟩ := hhelp
        exact (h.runOne (CJobSystem.mem_runs.mpr (.inl ⟨g, hmem⟩))).1
    · exact called.dropped.resolve_right (h.calls group Relation.ReflTransGen.refl c hmem)
  | works i x hx worked =>
    refine ⟨⟨fun a ha => ?_, fun a ha => ?_, hchecks⟩, ?_, worked.dropped⟩
    · rw [worked.flags a, h.flags a ha]
    · rw [worked.calls]
      exact h.calls a ha
    · cases worked.skipped with
      | inl hnone => exact hnone
      | inr hrun =>
        obtain ⟨job, run, rfl, rfl⟩ := hrun
        exact (h.runOne (CJobSystem.mem_runs.mpr (.inr ⟨job, List.mem_of_getElem? hx⟩))).1
  | terminates hs hout =>
    subst hs hout
    exact ⟨⟨h.flags, h.calls, hchecks⟩, rfl, rfl⟩

/-- The SubmitJob calls of the group that have not counted their job. -/
def CJobSystem.asked (s : CJobSystem G) (group : G) : Nat := tally (JobCallAt.asks group) s.calls

theorem Entry.submitted (h : Entry s s' out group) :
    (s'.groups group).submitted = (s.groups group).submitted + (out.jobs group .submitted).length := by
  have hcount := congrArg List.length h.numbers
  simpa only [List.length_range, List.length_append] using hcount

omit [DecidableEq G] in
theorem begin_calls {c : JobCallAt G} (hbegin : s.begin c = some (s', out)) :
    s'.calls = s.calls ++ [c] ∧ s'.groups = s.groups ∧ out = .nothing := by
  cases hbegin
  exact ⟨rfl, rfl, rfl⟩

theorem JobCallAt.submits_of_asks {c : JobCallAt G} (h : c.asks group ≠ 0) : c.submits group := by
  cases c with
  | submitting g priority =>
    by_contra hg
    exact h (if_neg hg)
  | _ => exact absurd rfl h

/-- A job is counted only as that of a SubmitJob call, and no call's job goes uncounted. -/
theorem step_asked {m : JobMove G} (hst : s.step parent m = some (s', out)) :
    s.asked group + m.asks group = (out.jobs group .submitted).length + s'.asked group := by
  unfold CJobSystem.asked
  cases step_stepped hst group with
  | begins _ c hbegin asks =>
    obtain ⟨hcalls, -, rfl⟩ := begin_calls hbegin
    rw [hcalls, tally_append, tally_cons, asks]
    exact (Nat.zero_add _).symm
  | goes i c c' hc called =>
    have hset := tally_set (f := JobCallAt.asks group) (b := c') hc
    have hasks := called.asks
    rw [called.calls]
    change _ + 0 = _
    omega
  | works i x hx worked =>
    rw [worked.calls, worked.submitted]
    exact (Nat.zero_add _).symm
  | terminates hs hout =>
    subst hs hout
    exact (Nat.zero_add _).symm

/-- Jobs counted and SubmitJob calls before their count change together. -/
theorem step_counted {m : JobMove G} (hm : ∀ priority, m ≠ .submit group priority)
    (hst : s.step parent m = some (s', out)) :
    (s'.groups group).submitted + s'.asked group = (s.groups group).submitted + s.asked group := by
  have hsubmitted := (step_entry hst group).submitted
  have hasked : s.asked group + m.asks group = _ := step_asked hst
  have hnone : m.asks group = 0 := by
    cases m with
    | submit g priority =>
      refine if_neg fun hg : g = group => ?_
      subst hg
      exact hm priority rfl
    | _ => rfl
  omega

/-- No other call comes to submit. -/
theorem step_submits {m : JobMove G} (hm : ∀ priority, m ≠ .submit group priority)
    (hst : s.step parent m = some (s', out)) {i : Nat} {a : JobCallAt G} (ha : s'.calls[i]? = some a)
    (hsubmits : a.submits group) : ∃ b, s.calls[i]? = some b ∧ b.submits group := by
  cases step_stepped hst group with
  | begins _ c hbegin asks submits =>
    rw [(begin_calls hbegin).1, List.getElem?_append] at ha
    split at ha
    · exact ⟨a, ha, hsubmits⟩
    · obtain rfl := List.mem_singleton.mp (List.mem_of_getElem? ha)
      obtain ⟨priority, hpriority⟩ := submits hsubmits
      exact absurd hpriority (hm priority)
  | goes j c c' hc called =>
    rw [called.calls, List.getElem?_set] at ha
    split at ha
    · rename_i heq
      subst heq
      rw [if_pos (List.getElem?_eq_some_iff.mp hc).1] at ha
      cases ha
      exact ⟨c, hc, called.submits hsubmits⟩
    · exact ⟨a, ha, hsubmits⟩
  | works j x hx worked => exact ⟨a, worked.calls ▸ ha, hsubmits⟩
  | terminates hs _ =>
    subst hs
    exact ⟨a, ha, hsubmits⟩

/-- What a call is at after a step of any thread. -/
theorem step_call {m : JobMove G} (hst : s.step parent m = some (s', out)) (group : G) {i : Nat} {a : JobCallAt G}
    (ha : s.calls[i]? = some a) :
    s'.calls[i]? = some a ∨ ∃ b, s'.calls[i]? = some b ∧ Called parent s s' group i a b out := by
  have hlt : i < s.calls.length := (List.getElem?_eq_some_iff.mp ha).1
  cases step_stepped hst group with
  | begins _ c hbegin =>
    rw [(begin_calls hbegin).1, List.getElem?_append_left hlt]
    exact .inl ha
  | goes j c c' hc called =>
    rw [called.calls, List.getElem?_set]
    split
    · rename_i heq
      subst heq
      obtain rfl : c = a := Option.some.inj (hc.symm.trans ha)
      exact .inr ⟨c', if_pos hlt, called⟩
    · exact .inl ha
  | works j x hx worked => exact .inl (worked.calls.symm ▸ ha)
  | terminates hs _ =>
    subst hs
    exact .inl ha

/-- A group that gets no job stays without active ones. -/
theorem step_idle {m : JobMove G} (hst : s.step parent m = some (s', out)) (hidle : (s.groups group).activeJobs = 0)
    (hsame : (s'.groups group).submitted = (s.groups group).submitted) : (s'.groups group).activeJobs = 0 := by
  have hentry := step_entry hst group
  have hsubmitted := hentry.submitted
  rw [hentry.active]
  omega

theorem Books.started_lt {js : List (JobSeen G)} (h : Books js s group) {job : Nat}
    (hjob : job ∈ jobsOf group .started js) : job < (s.groups group).submitted := by
  rw [← List.mem_range, ← h.numbers]
  exact h.once.subset (by simp [hjob])

theorem CJobSystem.mem_jobsAt {stage : JobStage} {job : Nat} {run : RunOneAt G} (hrun : run ∈ s.runs)
    (hheld : ⟨group, stage, job⟩ ∈ run.holds) : job ∈ s.jobsAt group stage := by
  have hmem : (⟨group, stage, job⟩ : HeldJob G) ∈ s.held := by
    refine List.mem_append.mpr ((CJobSystem.mem_runs.mp hrun).imp (fun hcall => ?_) fun hwork => ?_)
    · obtain ⟨g, hg⟩ := hcall
      exact List.mem_flatMap.mpr ⟨_, hg, hheld⟩
    · obtain ⟨k, hk⟩ := hwork
      exact List.mem_flatMap.mpr ⟨_, hk, hheld⟩
  exact List.mem_map.mpr ⟨_, List.mem_filter.mpr ⟨hmem, by simp⟩, rfl⟩

end Jobs

end TgeCore.Threading
