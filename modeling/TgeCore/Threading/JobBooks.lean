import TgeCore.Threading.JobSystem

namespace TgeCore.Threading
open Library

/-- Where a counted job is that is neither pending nor settled: its SubmitJob has not
pushed it, it is popped with its check not over, its check is over, or a Cancel has
dropped it. -/
inductive JobStage where
  | counted
  | unchecked
  | decided
  | dropping
deriving DecidableEq

structure HeldJob (G : Type) where
  group : G
  stage : JobStage
  job : Nat

section Held
variable {G : Type}

def RunOneAt.holds : RunOneAt G → List (HeldJob G)
  | .starting _ => []
  | .popped group job => [⟨group, .unchecked, job⟩]
  | .checking group job _ => [⟨group, .unchecked, job⟩]
  | .running group job => [⟨group, .decided, job⟩]
  | .settling group job => [⟨group, .decided, job⟩]

def WorkerAt.holds : WorkerAt G → List (HeldJob G)
  | .runner _ run => run.holds
  | _ => []

def JobCallAt.holds : JobCallAt G → List (HeldJob G)
  | .counted group job _ => [⟨group, .counted, job⟩]
  | .helping _ run => run.holds
  | .dropping group jobs => jobs.map fun job => ⟨group, .dropping, job⟩
  | _ => []

def CJobSystem.held (s : CJobSystem G) : List (HeldJob G) :=
  s.calls.flatMap JobCallAt.holds ++ s.workers.flatMap WorkerAt.holds

variable [DecidableEq G]

def CJobSystem.jobsAt (s : CJobSystem G) (group : G) (stage : JobStage) : List Nat :=
  (s.held.filter fun h => h.group = group ∧ h.stage = stage).map HeldJob.job

/-- A runner of the group that has not come to its pop. -/
def Body.runs (group : G) : Body G → Nat
  | .runner g => if g = group then 1 else 0
  | .other => 0

def RunOneAt.runs (group : G) : RunOneAt G → Nat
  | .starting g => if g = group then 1 else 0
  | _ => 0

def JobCallAt.runs (group : G) : JobCallAt G → Nat
  | .scheduling body _ => body.runs group
  | .executing _ body _ => body.runs group
  | _ => 0

def WorkerAt.runs (group : G) : WorkerAt G → Nat
  | .taken _ body => body.runs group
  | .between _ body => body.runs group
  | .runner _ run => run.runs group
  | _ => 0

/-- The runners about to be submitted, queued and starting. -/
def CJobSystem.runners (s : CJobSystem G) (group : G) : Nat :=
  tally (JobCallAt.runs group) s.calls + tally (fun i => i.body.runs group) s.workQueue +
    tally (WorkerAt.runs group) s.workers

/-- What the log of a run tells about a group's jobs. -/
inductive JobEvent where
  | submitted
  | started
  | skipped
  | dropped
  | settled
deriving DecidableEq

def JobSeen.jobs (group : G) (event : JobEvent) : JobSeen G → List Nat
  | .submitted g job => if g = group ∧ event = .submitted then [job] else []
  | .started g job => if g = group ∧ event = .started then [job] else []
  | .skipped g job => if g = group ∧ event = .skipped then [job] else []
  | .dropped g jobs => if g = group ∧ event = .dropped then jobs else []
  | .settled g jobs => if g = group ∧ event = .settled then jobs else []
  | _ => []

def jobsOf (group : G) (event : JobEvent) (os : List (JobSeen G)) : List Nat :=
  os.flatMap (JobSeen.jobs group event)

theorem jobsOf_concat (group : G) (event : JobEvent) (os : List (JobSeen G)) (out : JobSeen G) :
    jobsOf group event (os ++ [out]) = jobsOf group event os ++ out.jobs group event := by
  simp [jobsOf]

end Held

section Weights
variable {G : Type} [DecidableEq G] {s s' : CJobSystem G} {group : G}

def HeldJob.weight (group : G) (w : JobStage → Nat → Nat) (h : HeldJob G) : Nat :=
  if h.group = group then w h.stage h.job else 0

/-- What the group's jobs that threads hold weigh, each by its stage and number. -/
def CJobSystem.weigh (s : CJobSystem G) (group : G) (w : JobStage → Nat → Nat) : Nat :=
  tally (fun c => tally (HeldJob.weight group w) c.holds) s.calls +
    tally (fun x => tally (HeldJob.weight group w) x.holds) s.workers

/-- The weight of a job that is not decided yet. -/
def undecided (p : Nat → Nat) : JobStage → Nat → Nat
  | .counted, job => p job
  | .unchecked, job => p job
  | _, _ => 0

@[simp] theorem undecided_counted (p : Nat → Nat) : undecided p .counted = p := rfl

@[simp] theorem undecided_unchecked (p : Nat → Nat) : undecided p .unchecked = p := rfl

@[simp] theorem undecided_decided (p : Nat → Nat) : undecided p .decided = fun _ => 0 := rfl

@[simp] theorem undecided_dropping (p : Nat → Nat) : undecided p .dropping = fun _ => 0 := rfl

theorem CJobSystem.weigh_call {i : Nat} {c c' : JobCallAt G} (hc : s.calls[i]? = some c)
    (hcalls : s'.calls = s.calls.set i c') (hworkers : s'.workers = s.workers)
    (group : G) (w : JobStage → Nat → Nat) :
    s'.weigh group w + tally (HeldJob.weight group w) c.holds =
      s.weigh group w + tally (HeldJob.weight group w) c'.holds := by
  have hset := tally_set (f := fun c => tally (HeldJob.weight group w) c.holds) (b := c') hc
  simp only [weigh, hcalls, hworkers]
  omega

theorem CJobSystem.weigh_work {i : Nat} {x x' : WorkerAt G} (hx : s.workers[i]? = some x)
    (hcalls : s'.calls = s.calls) (hworkers : s'.workers = s.workers.set i x')
    (group : G) (w : JobStage → Nat → Nat) :
    s'.weigh group w + tally (HeldJob.weight group w) x.holds =
      s.weigh group w + tally (HeldJob.weight group w) x'.holds := by
  have hset := tally_set (f := fun x => tally (HeldJob.weight group w) x.holds) (b := x') hx
  simp only [weigh, hcalls, hworkers]
  omega

theorem CJobSystem.runners_call {i : Nat} {c c' : JobCallAt G} (hc : s.calls[i]? = some c)
    (hcalls : s'.calls = s.calls.set i c') (hworkers : s'.workers = s.workers)
    (hqueue : s'.workQueue = s.workQueue) (group : G) :
    s'.runners group + c.runs group = s.runners group + c'.runs group := by
  have hset := tally_set (f := JobCallAt.runs group) (b := c') hc
  simp only [runners, hcalls, hworkers, hqueue]
  omega

theorem CJobSystem.runners_work {i : Nat} {x x' : WorkerAt G} (hx : s.workers[i]? = some x)
    (hcalls : s'.calls = s.calls) (hworkers : s'.workers = s.workers.set i x')
    (hqueue : s'.workQueue = s.workQueue) (group : G) :
    s'.runners group + x.runs group = s.runners group + x'.runs group := by
  have hset := tally_set (f := WorkerAt.runs group) (b := x') hx
  simp only [runners, hcalls, hworkers, hqueue]
  omega

/-- The accounts of a group between two steps. Every counted job is in one place before
it is settled, and every job is started, skipped or dropped once. -/
structure Books (os : List (JobSeen G)) (s : CJobSystem G) (group : G) : Prop where
  numbers : jobsOf group .submitted os = List.range (s.groups group).submitted
  active : (s.groups group).activeJobs + (jobsOf group .settled os).length = (s.groups group).submitted
  placed : ∀ p, tally p (List.range (s.groups group).submitted) =
    s.weigh group (fun _ => p) + tally p (s.groups group).pending + tally p (jobsOf group .settled os)
  decided : ∀ p, tally p (List.range (s.groups group).submitted) =
    s.weigh group (undecided p) + tally p (s.groups group).pending + tally p (jobsOf group .started os) +
      tally p (jobsOf group .skipped os) + tally p (jobsOf group .dropped os)
  runners : (s.groups group).pending.length ≤ s.runners group

/-- What a step does to the accounts of a group. -/
structure Entry (s s' : CJobSystem G) (out : JobSeen G) (group : G) : Prop where
  numbers : List.range (s'.groups group).submitted =
    List.range (s.groups group).submitted ++ out.jobs group .submitted
  active : (s'.groups group).activeJobs = (s.groups group).activeJobs +
    (out.jobs group .submitted).length - (out.jobs group .settled).length
  placed : ∀ p, s'.weigh group (fun _ => p) + tally p (s'.groups group).pending +
      tally p (out.jobs group .settled) =
    s.weigh group (fun _ => p) + tally p (s.groups group).pending + tally p (out.jobs group .submitted)
  decided : ∀ p, s'.weigh group (undecided p) + tally p (s'.groups group).pending +
      tally p (out.jobs group .started) + tally p (out.jobs group .skipped) +
      tally p (out.jobs group .dropped) =
    s.weigh group (undecided p) + tally p (s.groups group).pending + tally p (out.jobs group .submitted)
  runners : (s.groups group).pending.length ≤ s.runners group →
    (s'.groups group).pending.length ≤ s'.runners group

theorem Books.step {os : List (JobSeen G)} {out : JobSeen G} (h : Books os s group)
    (he : Entry s s' out group) : Books (os ++ [out]) s' group := by
  have hactive := h.active
  have hplaced := h.placed fun _ => 1
  have hmoved := he.placed fun _ => 1
  have hcount := congrArg List.length he.numbers
  simp only [tally_one, List.length_range, List.length_append] at hplaced hmoved hcount
  refine ⟨?_, ?_, fun p => ?_, fun p => ?_, he.runners h.runners⟩
  · rw [jobsOf_concat, h.numbers, he.numbers]
  · rw [jobsOf_concat, List.length_append, he.active]
    omega
  · have hold := h.placed p
    have hnew := he.placed p
    rw [he.numbers, jobsOf_concat, tally_append, tally_append]
    omega
  · have hold := h.decided p
    have hnew := he.decided p
    rw [he.numbers, jobsOf_concat, jobsOf_concat, jobsOf_concat, tally_append, tally_append, tally_append,
      tally_append]
    omega

/-- A step that touches none of the group's jobs. -/
theorem Entry.frame {out : JobSeen G} (hgroup : s'.groups group = s.groups group)
    (hweigh : ∀ w, s'.weigh group w = s.weigh group w) (hrunners : s'.runners group = s.runners group)
    (hout : ∀ event, out.jobs group event = []) : Entry s s' out group := by
  refine ⟨?_, ?_, fun p => ?_, fun p => ?_, ?_⟩
  · rw [hgroup, hout, List.append_nil]
  · rw [hgroup, hout, hout]
    rfl
  · rw [hgroup, hout, hout, hweigh]
  · rw [hgroup, hout, hout, hout, hout, hweigh]
    rfl
  · rw [hgroup, hrunners]
    exact id

variable {parent : G → Option G} {out : JobSeen G}

/-- What is left in hand of RunOnePending's job. -/
def heldAfter : RunOneAt G ⊕ Bool → List (HeldJob G)
  | .inl run => run.holds
  | .inr _ => []

/-- A step of RunOnePending, apart from the thread that makes it. -/
structure RunEntry (s s' : CJobSystem G) (run : RunOneAt G) (next : RunOneAt G ⊕ Bool) (out : JobSeen G)
    (group : G) : Prop where
  calls : s'.calls = s.calls
  workers : s'.workers = s.workers
  workQueue : s'.workQueue = s.workQueue
  submitted : (s'.groups group).submitted = (s.groups group).submitted
  none : out.jobs group .submitted = []
  active : (s'.groups group).activeJobs =
    (s.groups group).activeJobs - (out.jobs group .settled).length
  placed : ∀ p, tally (HeldJob.weight group fun _ => p) (heldAfter next) +
      tally p (s'.groups group).pending + tally p (out.jobs group .settled) =
    tally (HeldJob.weight group fun _ => p) run.holds + tally p (s.groups group).pending
  decided : ∀ p, tally (HeldJob.weight group (undecided p)) (heldAfter next) +
      tally p (s'.groups group).pending + tally p (out.jobs group .started) +
      tally p (out.jobs group .skipped) + tally p (out.jobs group .dropped) =
    tally (HeldJob.weight group (undecided p)) run.holds + tally p (s.groups group).pending
  runners : (s'.groups group).pending.length ≤ (s.groups group).pending.length - run.runs group
  popped : ∀ run', next = .inl run' → run'.runs group = 0

theorem check_entry (g : G) (job : Nat) (ancestor : G) {run : RunOneAt G}
    (hrun : run.holds = [⟨g, .unchecked, job⟩]) (hpop : run.runs group = 0) :
    RunEntry s s run (.inl (s.check parent g job ancestor).1) (s.check parent g job ancestor).2 group := by
  unfold CJobSystem.check
  split
  · refine ⟨rfl, rfl, rfl, rfl, by simp [JobSeen.jobs], by simp [JobSeen.jobs], fun p => ?_, fun p => ?_, by omega,
      by simp [RunOneAt.runs]⟩
    · rw [hrun]
      simp [heldAfter, RunOneAt.holds, HeldJob.weight, JobSeen.jobs]
    · rw [hrun]
      by_cases hg : g = group
      · simp [heldAfter, RunOneAt.holds, HeldJob.weight, JobSeen.jobs, undecided, hg, Nat.add_comm]
      · simp [heldAfter, RunOneAt.holds, HeldJob.weight, JobSeen.jobs, hg]
  · split
    · refine ⟨rfl, rfl, rfl, rfl, by simp [JobSeen.jobs], by simp [JobSeen.jobs], fun p => ?_, fun p => ?_, by omega,
        by simp [RunOneAt.runs]⟩
      · rw [hrun]
        simp [heldAfter, RunOneAt.holds, HeldJob.weight, JobSeen.jobs]
      · rw [hrun]
        by_cases hg : g = group
        · simp [heldAfter, RunOneAt.holds, HeldJob.weight, JobSeen.jobs, undecided, hg, Nat.add_comm]
        · simp [heldAfter, RunOneAt.holds, HeldJob.weight, JobSeen.jobs, hg]
    · refine ⟨rfl, rfl, rfl, rfl, by simp [JobSeen.jobs], by simp [JobSeen.jobs], fun p => ?_, fun p => ?_, by omega,
        by simp [RunOneAt.runs]⟩
      · rw [hrun]
        simp [heldAfter, RunOneAt.holds, JobSeen.jobs]
      · rw [hrun]
        simp [heldAfter, RunOneAt.holds, JobSeen.jobs]

theorem runOne_entry (parent : G → Option G) (s : CJobSystem G) (run : RunOneAt G) (group : G) :
    RunEntry s (s.runOne parent run).1 run (s.runOne parent run).2.1 (s.runOne parent run).2.2 group := by
  cases run with
  | starting g =>
    simp only [CJobSystem.runOne]
    split
    · rename_i hnone
      refine ⟨rfl, rfl, rfl, rfl, rfl, rfl, fun p => rfl, fun p => rfl, ?_, by simp⟩
      by_cases hg : g = group
      · simp [← hg, hnone]
      · simp [RunOneAt.runs, hg]
    · rename_i job rest hpending
      by_cases hg : g = group
      · subst hg
        refine ⟨rfl, rfl, rfl, by simp, rfl, by simp [JobSeen.jobs], fun p => ?_, fun p => ?_, ?_,
          by simp [RunOneAt.runs]⟩
        · simp [heldAfter, RunOneAt.holds, HeldJob.weight, JobSeen.jobs, hpending]
        · simp [heldAfter, RunOneAt.holds, HeldJob.weight, JobSeen.jobs, undecided, hpending]
        · simp [RunOneAt.runs, hpending]
      · have hother := s.groups_setGroup_of_ne { s.groups g with pending := rest } (Ne.symm hg)
        refine ⟨rfl, rfl, rfl, by rw [hother], rfl, by rw [hother]; rfl, fun p => ?_, fun p => ?_, ?_,
          by simp [RunOneAt.runs]⟩
        · simp [hother, heldAfter, RunOneAt.holds, HeldJob.weight, JobSeen.jobs, hg]
        · simp [hother, heldAfter, RunOneAt.holds, HeldJob.weight, JobSeen.jobs, hg]
        · simp [hother, RunOneAt.runs, hg]
  | popped g job => exact check_entry g job g rfl rfl
  | checking g job ancestor => exact check_entry g job ancestor rfl rfl
  | running g job =>
    exact ⟨rfl, rfl, rfl, rfl, rfl, rfl, fun p => rfl, fun p => rfl, Nat.le_refl _,
      by simp [CJobSystem.runOne, RunOneAt.runs]⟩
  | settling g job =>
    simp only [CJobSystem.runOne]
    by_cases hg : g = group
    · subst hg
      refine ⟨rfl, rfl, rfl, by simp, by simp [JobSeen.jobs], by simp [JobSeen.jobs], fun p => ?_,
        fun p => ?_, by simp [RunOneAt.runs], by simp⟩
      · simp [heldAfter, RunOneAt.holds, HeldJob.weight, JobSeen.jobs, Nat.add_comm]
      · simp [heldAfter, RunOneAt.holds, HeldJob.weight, JobSeen.jobs, undecided]
    · have hother := s.groups_setGroup_of_ne
        { s.groups g with activeJobs := (s.groups g).activeJobs - 1 } (Ne.symm hg)
      refine ⟨rfl, rfl, rfl, by rw [hother], by simp [JobSeen.jobs], by rw [hother]; simp [JobSeen.jobs, hg],
        fun p => ?_, fun p => ?_, by rw [hother]; exact Nat.le_refl _, by simp⟩
      · simp [hother, heldAfter, RunOneAt.holds, HeldJob.weight, JobSeen.jobs, hg]
      · simp [hother, heldAfter, RunOneAt.holds, HeldJob.weight, JobSeen.jobs, hg]

theorem CJobSystem.weigh_same {i : Nat} {c c' : JobCallAt G} (hc : s.calls[i]? = some c)
    (hcalls : s'.calls = s.calls.set i c') (hworkers : s'.workers = s.workers)
    (hholds : ∀ w, tally (HeldJob.weight group w) c'.holds = tally (HeldJob.weight group w) c.holds)
    (w : JobStage → Nat → Nat) : s'.weigh group w = s.weigh group w := by
  have hmoved := weigh_call hc hcalls hworkers group w
  have hsame := hholds w
  omega

/-- A step of a call that moves no job of the group. -/
theorem Entry.call {i : Nat} {c c' : JobCallAt G} (hc : s.calls[i]? = some c)
    (hcalls : s'.calls = s.calls.set i c') (hworkers : s'.workers = s.workers)
    (hqueue : s'.workQueue = s.workQueue) (hgroup : s'.groups group = s.groups group)
    (hholds : ∀ w, tally (HeldJob.weight group w) c'.holds = tally (HeldJob.weight group w) c.holds)
    (hruns : c'.runs group = c.runs group) (hout : ∀ event, out.jobs group event = []) :
    Entry s s' out group := by
  have hrunners := CJobSystem.runners_call hc hcalls hworkers hqueue group
  exact .frame hgroup (CJobSystem.weigh_same hc hcalls hworkers hholds) (by omega) hout

/-- The step of a call that counts, pushes, drops or settles jobs of the group itself. -/
theorem Entry.own {i : Nat} {c c' : JobCallAt G} (hc : s.calls[i]? = some c)
    {state : CJobGroup.SState} (hs : s' = (s.setGroup group state).setCall i c')
    (hnumbers : List.range state.submitted =
      List.range (s.groups group).submitted ++ out.jobs group .submitted)
    (hactive : state.activeJobs = (s.groups group).activeJobs + (out.jobs group .submitted).length -
      (out.jobs group .settled).length)
    (hplaced : ∀ p, tally (HeldJob.weight group fun _ => p) c'.holds + tally p state.pending +
        tally p (out.jobs group .settled) =
      tally (HeldJob.weight group fun _ => p) c.holds + tally p (s.groups group).pending +
        tally p (out.jobs group .submitted))
    (hdecided : ∀ p, tally (HeldJob.weight group (undecided p)) c'.holds + tally p state.pending +
        tally p (out.jobs group .started) + tally p (out.jobs group .skipped) +
        tally p (out.jobs group .dropped) =
      tally (HeldJob.weight group (undecided p)) c.holds + tally p (s.groups group).pending +
        tally p (out.jobs group .submitted))
    (hrunners : state.pending.length + c.runs group ≤ (s.groups group).pending.length + c'.runs group ∨
      state.pending = []) : Entry s s' out group := by
  have hstate : s'.groups group = state := by simp [hs]
  have hcalls : s'.calls = s.calls.set i c' := by rw [hs]; rfl
  have hworkers : s'.workers = s.workers := by rw [hs]; rfl
  have hqueue : s'.workQueue = s.workQueue := by rw [hs]; rfl
  have hweigh := CJobSystem.weigh_call hc hcalls hworkers group
  have hmoved := CJobSystem.runners_call hc hcalls hworkers hqueue group
  refine ⟨by rw [hstate, hnumbers], by rw [hstate, hactive], fun p => ?_, fun p => ?_, fun hle => ?_⟩
  · have hone := hweigh fun _ => p
    have htwo := hplaced p
    rw [hstate]
    omega
  · have hone := hweigh (undecided p)
    have htwo := hdecided p
    rw [hstate]
    omega
  · rw [hstate]
    cases hrunners with
    | inl hmore => omega
    | inr hnone => simp [hnone]

theorem Entry.other {i : Nat} {c c' : JobCallAt G} (hc : s.calls[i]? = some c) {g : G}
    {state : CJobGroup.SState} (hs : s' = (s.setGroup g state).setCall i c') (hg : g ≠ group)
    (hholds : ∀ w, tally (HeldJob.weight group w) c'.holds = tally (HeldJob.weight group w) c.holds)
    (hruns : c'.runs group = c.runs group) (hout : ∀ event, out.jobs group event = []) :
    Entry s s' out group := by
  subst hs
  refine .call hc rfl rfl rfl ?_ hholds hruns hout
  exact s.groups_setGroup_of_ne state (Ne.symm hg)

theorem RunEntry.call {i : Nat} {g : G} {run : RunOneAt G} {next : RunOneAt G ⊕ Bool} {c' : JobCallAt G}
    (h : RunEntry s s' run next out group) (hc : s.calls[i]? = some (.helping g run))
    (hholds : c'.holds = heldAfter next) (hruns : c'.runs group = 0) :
    Entry s (s'.setCall i c') out group := by
  have hcalls : (s'.setCall i c').calls = s.calls.set i c' := congrArg (List.set · i c') h.calls
  have hweigh := CJobSystem.weigh_call hc hcalls h.workers group
  have hmoved := CJobSystem.runners_call hc hcalls h.workers h.workQueue group
  have hfewer := h.runners
  have hrun : (JobCallAt.helping g run).holds = run.holds ∧ (JobCallAt.helping g run).runs group = 0 :=
    ⟨rfl, rfl⟩
  simp only [hholds, hruns, hrun.1, hrun.2] at hweigh hmoved
  refine ⟨by simp [h.submitted, h.none], by simp [h.active, h.none], fun p => ?_, fun p => ?_,
    fun hle => ?_⟩
  · have hone := hweigh fun _ => p
    have htwo := h.placed p
    simp only [CJobSystem.groups_setCall, h.none, tally_nil]
    omega
  · have hone := hweigh (undecided p)
    have htwo := h.decided p
    simp only [CJobSystem.groups_setCall, h.none, tally_nil]
    omega
  · simp only [CJobSystem.groups_setCall]
    omega

theorem RunEntry.work {i job : Nat} {run : RunOneAt G} {next : RunOneAt G ⊕ Bool} {x' : WorkerAt G}
    (h : RunEntry s s' run next out group) (hx : s.workers[i]? = some (.runner job run))
    (hholds : x'.holds = heldAfter next) (hruns : x'.runs group = 0) :
    Entry s (s'.setWorker i x') out group := by
  have hworkers : (s'.setWorker i x').workers = s.workers.set i x' := congrArg (List.set · i x') h.workers
  have hcalls : (s'.setWorker i x').calls = s.calls := h.calls
  have hweigh := CJobSystem.weigh_work hx hcalls hworkers group
  have hmoved := CJobSystem.runners_work hx hcalls hworkers h.workQueue group
  have hfewer := h.runners
  have hrun : (WorkerAt.runner job run).holds = run.holds ∧
      (WorkerAt.runner job run).runs group = run.runs group := ⟨rfl, rfl⟩
  simp only [hholds, hruns, hrun.1, hrun.2] at hweigh hmoved
  refine ⟨by simp [h.submitted, h.none], by simp [h.active, h.none], fun p => ?_, fun p => ?_,
    fun hle => ?_⟩
  · have hone := hweigh fun _ => p
    have htwo := h.placed p
    simp only [CJobSystem.groups_setWorker, h.none, tally_nil]
    omega
  · have hone := hweigh (undecided p)
    have htwo := h.decided p
    simp only [CJobSystem.groups_setWorker, h.none, tally_nil]
    omega
  · simp only [CJobSystem.groups_setWorker]
    omega

/-- What a call has in its hands after it took the pending jobs of a group. -/
theorem JobCallAt.tally_holds_swapped (g : G) (jobs : List Nat) (w : JobStage → Nat → Nat) :
    tally (HeldJob.weight group w) (if jobs = [] then (.done : JobCallAt G) else .dropping g jobs).holds =
      if g = group then tally (w .dropping) jobs else 0 := by
  by_cases hnone : jobs = []
  · simp [hnone, JobCallAt.holds]
  · rw [if_neg hnone, JobCallAt.holds]
    by_cases hg : g = group
    · simp [HeldJob.weight, hg]
    · simp [HeldJob.weight, hg]

theorem JobCallAt.runs_swapped (g : G) (jobs : List Nat) :
    (if jobs = [] then (.done : JobCallAt G) else .dropping g jobs).runs group = 0 := by
  split
  all_goals rfl

/-- The count of a SubmitJob. -/
theorem submitting_entry {i : Nat} {g : G} {priority : EJobPriority} (hc : s.calls[i]? = some (.submitting g priority))
    (hst : s.callStep parent i (.submitting g priority) = some (s', out)) (group : G) : Entry s s' out group := by
  simp only [CJobSystem.callStep, Option.some.injEq, Prod.mk.injEq] at hst
  obtain ⟨rfl, rfl⟩ := hst
  by_cases hg : g = group
  · subst hg
    refine .own hc rfl ?_ ?_ (fun p => ?_) (fun p => ?_) (.inl ?_)
    · simp [JobSeen.jobs, List.range_succ]
    · simp [JobSeen.jobs]
    · simp [JobCallAt.holds, HeldJob.weight, JobSeen.jobs, Nat.add_comm]
    · simp [JobCallAt.holds, HeldJob.weight, JobSeen.jobs, undecided, Nat.add_comm]
    · simp [JobCallAt.runs]
  · refine .other hc rfl hg (fun w => ?_) rfl fun event => ?_
    · simp [JobCallAt.holds, HeldJob.weight, hg]
    · simp [JobSeen.jobs, hg]

theorem counted_entry {i : Nat} {g : G} {job : Nat} {priority : EJobPriority}
    (hc : s.calls[i]? = some (.counted g job priority))
    (hst : s.callStep parent i (.counted g job priority) = some (s', out)) (group : G) : Entry s s' out group := by
  simp only [CJobSystem.callStep, Option.some.injEq, Prod.mk.injEq] at hst
  obtain ⟨rfl, rfl⟩ := hst
  by_cases hg : g = group
  · subst hg
    refine .own hc rfl ?_ ?_ (fun p => ?_) (fun p => ?_) (.inl ?_)
    · simp [JobSeen.jobs]
    · simp [JobSeen.jobs]
    · simp [JobCallAt.holds, HeldJob.weight, JobSeen.jobs, Nat.add_comm]
    · simp [JobCallAt.holds, HeldJob.weight, JobSeen.jobs, undecided, Nat.add_comm]
    · simp [JobCallAt.runs, Body.runs]
  · refine .other hc rfl hg (fun w => ?_) ?_ fun event => ?_
    · simp [JobCallAt.holds, HeldJob.weight, hg]
    · simp [JobCallAt.runs, Body.runs, hg]
    · simp [JobSeen.jobs]

theorem executing_entry {i job : Nat} {body : Body G} {priority : EJobPriority}
    (hc : s.calls[i]? = some (.executing job body priority))
    (hst : s.callStep parent i (.executing job body priority) = some (s', out)) (group : G) : Entry s s' out group := by
  simp only [CJobSystem.callStep, Option.some.injEq, Prod.mk.injEq] at hst
  obtain ⟨rfl, rfl⟩ := hst
  refine .frame rfl (CJobSystem.weigh_same hc rfl rfl fun w => rfl) ?_ fun event => rfl
  · have hset := tally_set (f := JobCallAt.runs group) (b := .notifying job) hc
    simp only [JobCallAt.runs] at hset
    simp only [CJobSystem.runners, CJobSystem.setCall, tally_append, tally_cons, tally_nil]
    omega

theorem waiting_entry {i : Nat} {g : G} (hc : s.calls[i]? = some (.waiting g))
    (hst : s.callStep parent i (.waiting g) = some (s', out)) (group : G) : Entry s s' out group := by
  simp only [CJobSystem.callStep] at hst
  split at hst
  · obtain ⟨rfl, rfl⟩ := Prod.mk.inj (Option.some.inj hst)
    exact .call hc rfl rfl rfl rfl (fun w => rfl) rfl fun event => rfl
  · obtain ⟨rfl, rfl⟩ := Prod.mk.inj (Option.some.inj hst)
    exact .call hc rfl rfl rfl rfl (fun w => rfl) rfl fun event => rfl

theorem helping_entry {i : Nat} {g : G} {run : RunOneAt G} (hc : s.calls[i]? = some (.helping g run))
    (hst : s.callStep parent i (.helping g run) = some (s', out)) (group : G) : Entry s s' out group := by
  simp only [CJobSystem.callStep, Option.some.injEq, Prod.mk.injEq] at hst
  obtain ⟨rfl, rfl⟩ := hst
  refine (runOne_entry parent s run group).call hc ?_ ?_
  · split
    · rename_i run' hnext
      rw [hnext]
      rfl
    · rename_i hnext
      rw [hnext]
      rfl
    · rename_i hnext
      rw [hnext]
      rfl
  · split
    all_goals rfl

theorem cancelling_entry {i : Nat} {g : G} (hc : s.calls[i]? = some (.cancelling g))
    (hst : s.callStep parent i (.cancelling g) = some (s', out)) (group : G) : Entry s s' out group := by
  simp only [CJobSystem.callStep, Option.some.injEq, Prod.mk.injEq] at hst
  obtain ⟨rfl, rfl⟩ := hst
  by_cases hg : g = group
  · subst hg
    exact .own hc rfl (by simp [JobSeen.jobs]) (by simp [JobSeen.jobs]) (fun p => rfl) (fun p => rfl)
      (.inl (Nat.le_refl _))
  · exact .other hc rfl hg (fun w => rfl) rfl fun event => rfl

/-- A Cancel takes what is pending. -/
theorem swapping_entry {i : Nat} {g : G} (hc : s.calls[i]? = some (.swapping g))
    (hst : s.callStep parent i (.swapping g) = some (s', out)) (group : G) : Entry s s' out group := by
  simp only [CJobSystem.callStep, Option.some.injEq, Prod.mk.injEq] at hst
  obtain ⟨rfl, rfl⟩ := hst
  by_cases hg : g = group
  · subst hg
    refine .own hc rfl (by simp [JobSeen.jobs]) (by simp [JobSeen.jobs]) (fun p => ?_) (fun p => ?_)
      (.inr rfl)
    · rw [JobCallAt.tally_holds_swapped]
      simp [JobCallAt.holds, JobSeen.jobs]
    · rw [JobCallAt.tally_holds_swapped]
      simp [JobCallAt.holds, JobSeen.jobs]
  · refine .other hc rfl hg (fun w => ?_) (JobCallAt.runs_swapped ..) fun event => ?_
    · rw [JobCallAt.tally_holds_swapped, if_neg hg]
      rfl
    · simp [JobSeen.jobs, hg]

theorem dropping_entry {i : Nat} {g : G} {jobs : List Nat} (hc : s.calls[i]? = some (.dropping g jobs))
    (hst : s.callStep parent i (.dropping g jobs) = some (s', out)) (group : G) : Entry s s' out group := by
  simp only [CJobSystem.callStep, Option.some.injEq, Prod.mk.injEq] at hst
  obtain ⟨rfl, rfl⟩ := hst
  by_cases hg : g = group
  · subst hg
    refine .own hc rfl ?_ ?_ (fun p => ?_) (fun p => ?_) (.inl (Nat.le_refl _))
    · simp [JobSeen.jobs]
    · simp [JobSeen.jobs]
    · simp [JobCallAt.holds, JobSeen.jobs, HeldJob.weight,
        Nat.add_comm]
    · simp [JobCallAt.holds, JobSeen.jobs, HeldJob.weight,
        undecided]
  · refine .other hc rfl hg (fun w => ?_) rfl fun event => ?_
    · simp [JobCallAt.holds, HeldJob.weight, hg]
    · simp [JobSeen.jobs, hg]

theorem locking_entry {i : Nat} {before : List Nat} (hc : s.calls[i]? = some (.locking before))
    (hst : s.callStep parent i (.locking before) = some (s', out)) (group : G) : Entry s s' out group := by
  simp only [CJobSystem.callStep] at hst
  split at hst
  · cases hst
  · obtain ⟨rfl, rfl⟩ := Prod.mk.inj (Option.some.inj hst)
    exact .call hc rfl rfl rfl rfl (fun w => rfl) rfl fun event => rfl

theorem loadingPending_entry {i : Nat} {before : List Nat} (hc : s.calls[i]? = some (.loadingPending before))
    (hst : s.callStep parent i (.loadingPending before) = some (s', out)) (group : G) : Entry s s' out group := by
  simp only [CJobSystem.callStep] at hst
  split at hst
  · obtain ⟨rfl, rfl⟩ := Prod.mk.inj (Option.some.inj hst)
    exact .call hc rfl rfl rfl rfl (fun w => rfl) rfl fun event => rfl
  · obtain ⟨rfl, rfl⟩ := Prod.mk.inj (Option.some.inj hst)
    exact .call hc rfl rfl rfl rfl (fun w => rfl) rfl fun event => rfl

theorem loadingActive_entry {i : Nat} {before : List Nat} (hc : s.calls[i]? = some (.loadingActive before))
    (hst : s.callStep parent i (.loadingActive before) = some (s', out)) (group : G) : Entry s s' out group := by
  simp only [CJobSystem.callStep] at hst
  split at hst
  · obtain ⟨rfl, rfl⟩ := Prod.mk.inj (Option.some.inj hst)
    exact .call hc rfl rfl rfl rfl (fun w => rfl) rfl fun event => rfl
  · obtain ⟨rfl, rfl⟩ := Prod.mk.inj (Option.some.inj hst)
    exact .call hc rfl rfl rfl rfl (fun w => rfl) rfl fun event => rfl

theorem callStep_entry {i : Nat} {c : JobCallAt G} (hc : s.calls[i]? = some c)
    (hst : s.callStep parent i c = some (s', out)) (group : G) : Entry s s' out group := by
  cases c with
  | submitting g priority => exact submitting_entry hc hst group
  | counted g job priority => exact counted_entry hc hst group
  | scheduling body priority =>
    simp only [CJobSystem.callStep, Option.some.injEq, Prod.mk.injEq] at hst
    obtain ⟨rfl, rfl⟩ := hst
    exact .call hc rfl rfl rfl rfl (fun w => rfl) rfl fun event => rfl
  | executing job body priority => exact executing_entry hc hst group
  | notifying job =>
    simp only [CJobSystem.callStep, Option.some.injEq, Prod.mk.injEq] at hst
    obtain ⟨rfl, rfl⟩ := hst
    exact .call hc rfl rfl rfl rfl (fun w => rfl) rfl fun event => rfl
  | waiting g => exact waiting_entry hc hst group
  | helping g run => exact helping_entry hc hst group
  | pausing g =>
    simp only [CJobSystem.callStep, Option.some.injEq, Prod.mk.injEq] at hst
    obtain ⟨rfl, rfl⟩ := hst
    exact .call hc rfl rfl rfl rfl (fun w => rfl) rfl fun event => rfl
  | cancelling g => exact cancelling_entry hc hst group
  | swapping g => exact swapping_entry hc hst group
  | dropping g jobs => exact dropping_entry hc hst group
  | locking before => exact locking_entry hc hst group
  | loadingPending before => exact loadingPending_entry hc hst group
  | loadingActive before => exact loadingActive_entry hc hst group
  | done => cases hst

/-- A step of a thread of the pool that is in no group's RunOnePending. -/
theorem Entry.work {i : Nat} {x x' : WorkerAt G} (hx : s.workers[i]? = some x)
    (hcalls : s'.calls = s.calls) (hworkers : s'.workers = s.workers.set i x')
    (hqueue : s'.workQueue = s.workQueue) (hgroup : s'.groups group = s.groups group)
    (hholds : x'.holds = x.holds) (hruns : x'.runs group = x.runs group)
    (hout : ∀ event, out.jobs group event = []) : Entry s s' out group := by
  have hrunners := CJobSystem.runners_work hx hcalls hworkers hqueue group
  refine .frame hgroup (fun w => ?_) (by omega) hout
  have hmoved := CJobSystem.weigh_work hx hcalls hworkers group w
  rw [hholds] at hmoved
  omega

/-- The work queue gives its runner to the thread that takes it. -/
theorem Entry.take {i : Nat} {top : SWorkItem G} (hx : s.workers[i]? = some .idle)
    (htop : top ∈ s.workQueue) :
    Entry s ({ s with workQueue := s.workQueue.erase top }.setWorker i (.taken top.job top.body))
      .nothing group := by
  have hset := tally_set (f := WorkerAt.runs group) (b := .taken top.job top.body) hx
  have herase := tally_erase (f := fun i : SWorkItem G => i.body.runs group) htop
  simp only [WorkerAt.runs] at hset
  refine .frame rfl (fun w => ?_) ?_ fun event => rfl
  · have hmoved := tally_set (b := .taken top.job top.body)
      (f := fun x : WorkerAt G => tally (HeldJob.weight group w) x.holds) hx
    change _ + 0 = _ + 0 at hmoved
    simp only [CJobSystem.weigh, CJobSystem.setWorker]
    omega
  · simp only [CJobSystem.runners, CJobSystem.setWorker]
    omega

theorem workStep_entry {i : Nat} {x : WorkerAt G} (hx : s.workers[i]? = some x)
    (hst : s.workStep parent i x = some (s', out)) (group : G) : Entry s s' out group := by
  cases x with
  | idle =>
    simp only [CJobSystem.workStep] at hst
    split at hst
    · rename_i top htop
      obtain ⟨rfl, rfl⟩ := Prod.mk.inj (Option.some.inj hst)
      exact .take hx (List.argmin_mem htop)
    · split at hst
      · obtain ⟨rfl, rfl⟩ := Prod.mk.inj (Option.some.inj hst)
        exact .work hx rfl rfl rfl rfl rfl rfl fun event => rfl
      · cases hst
  | taken job body =>
    simp only [CJobSystem.workStep, Option.some.injEq, Prod.mk.injEq] at hst
    obtain ⟨rfl, rfl⟩ := hst
    exact .work hx rfl rfl rfl rfl rfl rfl fun event => rfl
  | between job body =>
    simp only [CJobSystem.workStep, Option.some.injEq, Prod.mk.injEq] at hst
    obtain ⟨rfl, rfl⟩ := hst
    cases body with
    | runner g => exact .work hx rfl rfl rfl rfl rfl rfl fun event => rfl
    | other => exact .work hx rfl rfl rfl rfl rfl rfl fun event => rfl
  | runner job run =>
    simp only [CJobSystem.workStep, Option.some.injEq, Prod.mk.injEq] at hst
    obtain ⟨rfl, rfl⟩ := hst
    refine (runOne_entry parent s run group).work hx ?_ ?_
    · split
      · rename_i run' hnext
        rw [hnext]
        rfl
      · rename_i hnext
        rw [hnext]
        rfl
    · split
      · rename_i run' hnext
        exact (runOne_entry parent s run group).popped run' hnext
      · rfl
  | other job =>
    simp only [CJobSystem.workStep, Option.some.injEq, Prod.mk.injEq] at hst
    obtain ⟨rfl, rfl⟩ := hst
    exact .work hx rfl rfl rfl rfl rfl rfl fun event => rfl
  | finishing job =>
    simp only [CJobSystem.workStep] at hst
    split at hst
    · cases hst
    · obtain ⟨rfl, rfl⟩ := Prod.mk.inj (Option.some.inj hst)
      exact .work hx rfl rfl rfl rfl rfl rfl fun event => rfl
  | exited => cases hst

/-- A call that begins holds no job. -/
theorem begin_entry {c : JobCallAt G} (hholds : c.holds = []) (hruns : c.runs group = 0)
    (hst : s.begin c = some (s', out)) : Entry s s' out group := by
  simp only [CJobSystem.begin, Option.some.injEq, Prod.mk.injEq] at hst
  obtain ⟨rfl, rfl⟩ := hst
  refine .frame rfl (fun w => ?_) ?_ fun event => rfl
  · simp [CJobSystem.weigh, hholds]
  · simp [CJobSystem.runners, hruns]

theorem step_entry {m : JobMove G} (hst : s.step parent m = some (s', out)) (group : G) :
    Entry s s' out group := by
  cases m with
  | submit g priority => exact begin_entry rfl rfl hst
  | wait g => exact begin_entry rfl rfl hst
  | cancel g => exact begin_entry rfl rfl hst
  | schedule priority => exact begin_entry rfl rfl hst
  | waitForAllJobs => exact begin_entry rfl rfl hst
  | terminate =>
    cases hst
    exact .frame rfl (fun w => rfl) rfl fun event => rfl
  | call index =>
    obtain ⟨c, hc, hst⟩ := Option.bind_eq_some_iff.mp hst
    exact callStep_entry hc hst group
  | work worker =>
    obtain ⟨x, hx, hst⟩ := Option.bind_eq_some_iff.mp hst
    exact workStep_entry hx hst group

theorem books_run {numThreads : Nat} {ms : List (JobMove G)} {os : List (JobSeen G)}
    (hr : (jobSystem parent).run (.create numThreads) ms = some (s, os)) (group : G) : Books os s group := by
  have hstart : Books [] (.create numThreads : CJobSystem G) group := by
    have hidle : ∀ w, (CJobSystem.create numThreads : CJobSystem G).weigh group w = 0 := by
      intro w
      simp [CJobSystem.weigh, CJobSystem.create, WorkerAt.holds]
    refine ⟨rfl, rfl, fun p => ?_, fun p => ?_, Nat.zero_le _⟩
    · rw [hidle]
      rfl
    · rw [hidle]
      rfl
  exact Machine.run_invariant (fun _ os s => Books os s group) [] []
    (fun _ os s m t o h hst => h.step (step_entry hst group)) hstart hr

end Weights

end TgeCore.Threading
