import TgeCore.Threading.JobBooks

namespace TgeCore.Threading
open Library

section Statement
variable {G : Type}

/-- The jobs counted as pending that a part has: one that is to be pushed or just taken. -/
def JobCallAt.queued : JobCallAt G → List Nat
  | .executing job _ _ => [job]
  | _ => []

def WorkerAt.queued : WorkerAt G → List Nat
  | .taken job _ => [job]
  | _ => []

def WorkerAt.uncounted : WorkerAt G → List Nat
  | .between job _ => [job]
  | _ => []

/-- The job of a thread that is starting or running it. -/
def WorkerAt.unfinished : WorkerAt G → List Nat
  | .taken job _ => [job]
  | .between job _ => [job]
  | .runner job _ => [job]
  | .other job => [job]
  | _ => []

/-- The jobs whose pending count is taken back and whose active count is not there yet. -/
def CJobSystem.uncounted (s : CJobSystem G) : List Nat := s.workers.flatMap WorkerAt.uncounted

/-- The jobs that are queued, starting or running. -/
def CJobSystem.unfinished (s : CJobSystem G) : List Nat :=
  s.workQueue.map SWorkItem.job ++ s.workers.flatMap WorkerAt.unfinished

/-- The jobs that were submitted before a wait whose second load the move makes. -/
def CJobSystem.evaluates (s : CJobSystem G) : JobMove G → Option (List Nat)
  | .call index => (s.calls[index]?).bind fun
    | .loadingActive before => some before
    | _ => none
  | _ => none

/-- A wait's predicate does not come out true while a job submitted before it is in the list. -/
def CJobSystem.WaitsFor (jobs : CJobSystem G → List Nat) (s : CJobSystem G) (m : JobMove G) : Prop :=
  ∀ before ∈ s.evaluates m, s.activeJobs = 0 → ∀ k ∈ before, k ∉ jobs s

end Statement

variable {G : Type} {s s' : CJobSystem G} {out : JobSeen G}

instance (jobs : CJobSystem G → List Nat) (s : CJobSystem G) (m : JobMove G) :
    Decidable (s.WaitsFor jobs m) :=
  inferInstanceAs (Decidable (∀ before ∈ s.evaluates m, s.activeJobs = 0 → ∀ k ∈ before, k ∉ jobs s))

/-- A thread whose job the scheduler counts as active. -/
def WorkerAt.active : WorkerAt G → Nat
  | .runner _ _ => 1
  | .other _ => 1
  | .finishing _ => 1
  | _ => 0

/-- The jobs of the scheduler that a call knows. -/
def JobCallAt.names : JobCallAt G → List Nat
  | .executing job _ _ => [job]
  | .notifying job => [job]
  | .locking before => before
  | .loadingPending before => before
  | .loadingActive before => before
  | _ => []

/-- The jobs that are counted as pending. -/
def CJobSystem.queued (s : CJobSystem G) : List Nat :=
  s.calls.flatMap JobCallAt.queued ++ s.workQueue.map SWorkItem.job ++ s.workers.flatMap WorkerAt.queued

/-- The scheduler's counters, and what a wait has seen of them: past its first load no
job submitted before it is pending, and none can become so. -/
structure CJobSystem.Scheduled (s : CJobSystem G) : Prop where
  pending : s.pendingJobs = tally (fun c => c.queued.length) s.calls + s.workQueue.length +
    tally (fun x => x.queued.length) s.workers
  active : s.activeJobs = tally WorkerAt.active s.workers
  below : ∀ c ∈ s.calls, ∀ k ∈ c.names, k < s.nextJob
  returned : ∀ k ∈ s.returned, k < s.nextJob
  loaded : ∀ before, .loadingActive before ∈ s.calls → ∀ k ∈ before, k ∉ s.queued

theorem CJobSystem.mem_queued {k : Nat} : k ∈ s.queued ↔ (∃ c ∈ s.calls, k ∈ c.queued) ∨
    (∃ i ∈ s.workQueue, i.job = k) ∨ ∃ x ∈ s.workers, k ∈ x.queued := by
  simp [queued]

/-- Where nothing is counted as pending, nothing is. -/
theorem CJobSystem.Scheduled.none (h : s.Scheduled) (hnone : s.pendingJobs = 0) (k : Nat) :
    k ∉ s.queued := by
  have hpending := h.pending
  rw [hnone] at hpending
  have hcalls : tally (fun c : JobCallAt G => c.queued.length) s.calls = 0 := by omega
  have hqueue : s.workQueue = [] := List.eq_nil_of_length_eq_zero (by omega)
  have hworkers : tally (fun x : WorkerAt G => x.queued.length) s.workers = 0 := by omega
  intro hk
  rcases mem_queued.mp hk with ⟨c, hc, hkc⟩ | ⟨i, hi, -⟩ | ⟨x, hx, hkx⟩
  · rw [List.eq_nil_of_length_eq_zero (tally_eq_zero.mp hcalls c hc)] at hkc
    cases hkc
  · rw [hqueue] at hi
    cases hi
  · rw [List.eq_nil_of_length_eq_zero (tally_eq_zero.mp hworkers x hx)] at hkx
    cases hkx

/-- At the second load of a predicate that comes out true, what is unfinished is
between its two counters. -/
theorem CJobSystem.Scheduled.uncounted (h : s.Scheduled) {before : List Nat} {k : Nat}
    (hbefore : .loadingActive before ∈ s.calls) (hactive : s.activeJobs = 0) (hk : k ∈ before) :
    k ∈ s.unfinished ↔ k ∈ s.uncounted := by
  have hqueued := h.loaded before hbefore k hk
  have hidle := h.active
  rw [hactive, eq_comm, tally_eq_zero] at hidle
  unfold CJobSystem.unfinished CJobSystem.uncounted
  rw [List.mem_append, List.mem_map, List.mem_flatMap, List.mem_flatMap]
  constructor
  · intro hunfinished
    rcases hunfinished with ⟨i, hi, rfl⟩ | ⟨x, hx, hkx⟩
    · exact absurd (mem_queued.mpr (.inr (.inl ⟨i, hi, rfl⟩))) hqueued
    · refine ⟨x, hx, ?_⟩
      have hx' := hidle x hx
      cases x with
      | taken job body => exact absurd (mem_queued.mpr (.inr (.inr ⟨_, hx, hkx⟩))) hqueued
      | between job body => exact hkx
      | runner job run => cases hx'
      | other job => cases hx'
      | _ => cases hkx
  · intro hbetween
    obtain ⟨x, hx, hkx⟩ := hbetween
    refine .inr ⟨x, hx, ?_⟩
    cases x with
    | between job body => exact hkx
    | _ => cases hkx

/-- Only a job that is numbered anew can become pending. -/
theorem CJobSystem.Scheduled.keep (h : s.Scheduled)
    (hqueued : ∀ k ∈ s'.queued, k ∈ s.queued ∨ s.nextJob ≤ k)
    (hcalls : ∀ before, .loadingActive before ∈ s'.calls → .loadingActive before ∈ s.calls ∨
      ∀ k ∈ before, k ∉ s.queued ∧ k < s.nextJob) :
    ∀ before, .loadingActive before ∈ s'.calls → ∀ k ∈ before, k ∉ s'.queued := by
  intro before hbefore k hk hin
  have hold : k ∉ s.queued ∧ k < s.nextJob := by
    cases hcalls before hbefore with
    | inl hcall => exact ⟨h.loaded before hcall k hk, h.below _ hcall k hk⟩
    | inr hnew => exact hnew k hk
  cases hqueued k hin with
  | inl hqueued => exact hold.1 hqueued
  | inr hnext => exact absurd hold.2 (Nat.not_lt.mpr hnext)

/-- A step of a call that leaves the work queue alone. -/
theorem CJobSystem.Scheduled.call (h : s.Scheduled) {i : Nat} {c c' : JobCallAt G}
    (hc : s.calls[i]? = some c) (hcalls : s'.calls = s.calls.set i c')
    (hqueue : s'.workQueue = s.workQueue) (hworkers : s'.workers = s.workers)
    (hpending : s'.pendingJobs + c.queued.length = s.pendingJobs + c'.queued.length)
    (hactive : s'.activeJobs = s.activeJobs) (hnext : s.nextJob ≤ s'.nextJob)
    (hnames : ∀ k ∈ c'.names, k < s'.nextJob) (hreturned : ∀ k ∈ s'.returned, k < s'.nextJob)
    (hqueued : ∀ k ∈ c'.queued, s.nextJob ≤ k)
    (hloaded : ∀ before, c' = .loadingActive before → ∀ k ∈ before, k ∉ s.queued ∧ k < s.nextJob) :
    s'.Scheduled := by
  refine ⟨?_, ?_, fun d hd k hk => ?_, hreturned, h.keep (fun k hk => ?_) fun before hbefore => ?_⟩
  · have hset := tally_set (f := fun c : JobCallAt G => c.queued.length) (b := c') hc
    have hold := h.pending
    rw [hcalls, hqueue, hworkers]
    omega
  · rw [hactive, hworkers]
    exact h.active
  · rw [hcalls] at hd
    cases List.mem_or_eq_of_mem_set hd with
    | inl hold => exact (h.below d hold k hk).trans_le hnext
    | inr hnew => exact hnames k (hnew ▸ hk)
  · rcases mem_queued.mp hk with ⟨d, hd, hkd⟩ | hitem | hwork
    · rw [hcalls] at hd
      cases List.mem_or_eq_of_mem_set hd with
      | inl hold => exact .inl (mem_queued.mpr (.inl ⟨d, hold, hkd⟩))
      | inr hnew => exact .inr (hqueued k (hnew ▸ hkd))
    · exact .inl (mem_queued.mpr (.inr (.inl (hqueue ▸ hitem))))
    · exact .inl (mem_queued.mpr (.inr (.inr (hworkers ▸ hwork))))
  · rw [hcalls] at hbefore
    cases List.mem_or_eq_of_mem_set hbefore with
    | inl hold => exact .inl hold
    | inr hnew => exact .inr (hloaded before hnew.symm)

/-- The push of Execute. -/
theorem CJobSystem.Scheduled.push (h : s.Scheduled) {i job : Nat} {body : Body G} {priority : EJobPriority}
    (hc : s.calls[i]? = some (.executing job body priority)) (item : SWorkItem G) (hitem : item.job = job)
    (sequence : UInt64) :
    ({ s with workQueue := s.workQueue ++ [item], nextSequence := sequence }.setCall i
      (.notifying job)).Scheduled := by
  have hin : JobCallAt.executing job body priority ∈ s.calls := List.mem_of_getElem? hc
  refine ⟨?_, h.active, fun d hd k hk => ?_, h.returned, h.keep (fun k hk => ?_) fun before hbefore => ?_⟩
  · have hset := tally_set (f := fun c : JobCallAt G => c.queued.length) (b := .notifying job) hc
    have hold := h.pending
    change _ + 1 = _ + 0 at hset
    simp only [CJobSystem.setCall, List.length_append, List.length_singleton]
    omega
  · cases List.mem_or_eq_of_mem_set hd with
    | inl hold => exact h.below d hold k hk
    | inr hnew => exact h.below _ hin k (by rw [hnew] at hk; exact hk)
  · refine .inl ?_
    rcases mem_queued.mp hk with ⟨d, hd, hkd⟩ | ⟨i, hi, rfl⟩ | hwork
    · cases List.mem_or_eq_of_mem_set hd with
      | inl hold => exact mem_queued.mpr (.inl ⟨d, hold, hkd⟩)
      | inr hnew =>
        rw [hnew] at hkd
        cases hkd
    · cases List.mem_append.mp hi with
      | inl hold => exact mem_queued.mpr (.inr (.inl ⟨i, hold, rfl⟩))
      | inr hnew =>
        rw [List.mem_singleton.mp hnew, hitem]
        exact mem_queued.mpr (.inl ⟨_, hin, List.mem_singleton.mpr rfl⟩)
    · exact mem_queued.mpr (.inr (.inr hwork))
  · cases List.mem_or_eq_of_mem_set hbefore with
    | inl hold => exact .inl hold
    | inr hnew => cases hnew

/-- A step of a thread of the pool. What it takes comes from the work queue. -/
theorem CJobSystem.Scheduled.work (h : s.Scheduled) {i : Nat} {x x' : WorkerAt G}
    (hx : s.workers[i]? = some x) (hcalls : s'.calls = s.calls)
    (hworkers : s'.workers = s.workers.set i x')
    (hpending : s'.pendingJobs + s.workQueue.length + x.queued.length =
      s.pendingJobs + s'.workQueue.length + x'.queued.length)
    (hactive : s'.activeJobs + x.active = s.activeJobs + x'.active) (hnext : s'.nextJob = s.nextJob)
    (hreturned : s'.returned = s.returned) (hqueue : ∀ i ∈ s'.workQueue, i ∈ s.workQueue)
    (hqueued : ∀ k ∈ x'.queued, k ∈ s.queued) : s'.Scheduled := by
  refine ⟨?_, ?_, ?_, ?_, h.keep (fun k hk => .inl ?_) fun before hbefore => .inl (hcalls ▸ hbefore)⟩
  · have hset := tally_set (f := fun x : WorkerAt G => x.queued.length) (b := x') hx
    have hold := h.pending
    rw [hcalls, hworkers]
    omega
  · have hset := tally_set (f := WorkerAt.active) (b := x') hx
    have hold := h.active
    rw [hworkers]
    omega
  · rw [hcalls, hnext]
    exact h.below
  · rw [hreturned, hnext]
    exact h.returned
  · rcases mem_queued.mp hk with hcall | ⟨i, hi, rfl⟩ | ⟨y, hy, hky⟩
    · exact mem_queued.mpr (.inl (hcalls ▸ hcall))
    · exact mem_queued.mpr (.inr (.inl ⟨i, hqueue i hi, rfl⟩))
    · rw [hworkers] at hy
      cases List.mem_or_eq_of_mem_set hy with
      | inl hold => exact mem_queued.mpr (.inr (.inr ⟨y, hold, hky⟩))
      | inr hnew => exact hqueued k (hnew ▸ hky)

variable [DecidableEq G] {parent : G → Option G}

theorem CJobSystem.Scheduled.callStep (h : s.Scheduled) {i : Nat} {c : JobCallAt G}
    (hc : s.calls[i]? = some c) (hst : s.callStep parent i c = some (s', out)) : s'.Scheduled := by
  have hin : c ∈ s.calls := List.mem_of_getElem? hc
  have hnames := h.below c hin
  cases c with
  | scheduling body priority =>
    cases hst
    refine .call h hc rfl rfl rfl rfl rfl (Nat.le_succ _) (fun k hk => ?_) (fun k hk => ?_) (fun k hk => ?_)
      (by simp)
    · obtain rfl := List.mem_singleton.mp hk
      exact Nat.lt_succ_self _
    · exact (h.returned k hk).trans (Nat.lt_succ_self _)
    · obtain rfl := List.mem_singleton.mp hk
      exact Nat.le_refl _
  | executing job body priority =>
    cases hst
    exact h.push hc _ rfl _
  | notifying job =>
    cases hst
    refine .call h hc rfl rfl rfl rfl rfl (Nat.le_refl _) (List.forall_mem_nil _) (fun k hk => ?_)
      (List.forall_mem_nil _) (by simp)
    cases List.mem_append.mp hk with
    | inl hold => exact h.returned k hold
    | inr hnew => exact hnames k hnew
  | waiting g =>
    simp only [CJobSystem.callStep] at hst
    split at hst
    all_goals
      cases hst
      exact .call h hc rfl rfl rfl rfl rfl (Nat.le_refl _) (List.forall_mem_nil _) h.returned
        (List.forall_mem_nil _) (by simp)
  | helping g run =>
    simp only [CJobSystem.callStep, Option.some.injEq, Prod.mk.injEq] at hst
    obtain ⟨rfl, -⟩ := hst
    rw [s.runOne_frame parent run]
    split
    all_goals
      exact .call h hc rfl rfl rfl rfl rfl (Nat.le_refl _) (List.forall_mem_nil _) h.returned
        (List.forall_mem_nil _) (by simp)
  | swapping g =>
    simp only [CJobSystem.callStep, Option.some.injEq, Prod.mk.injEq] at hst
    obtain ⟨rfl, -⟩ := hst
    split
    all_goals
      exact .call h hc rfl rfl rfl rfl rfl (Nat.le_refl _) (List.forall_mem_nil _) h.returned
        (List.forall_mem_nil _) (by simp)
  | locking before =>
    simp only [CJobSystem.callStep] at hst
    split at hst
    · cases hst
    · cases hst
      exact .call h hc rfl rfl rfl rfl rfl (Nat.le_refl _) hnames h.returned
        (List.forall_mem_nil _) (by simp)
  | loadingPending before =>
    simp only [CJobSystem.callStep] at hst
    split at hst
    · rename_i hnone
      cases hst
      refine .call h hc rfl rfl rfl rfl rfl (Nat.le_refl _) hnames h.returned (List.forall_mem_nil _)
        fun b hb k hk => ?_
      cases hb
      exact ⟨h.none hnone k, hnames k hk⟩
    · cases hst
      exact .call h hc rfl rfl rfl rfl rfl (Nat.le_refl _) hnames h.returned
        (List.forall_mem_nil _) (by simp)
  | loadingActive before =>
    simp only [CJobSystem.callStep] at hst
    split at hst
    · cases hst
      exact .call h hc rfl rfl rfl rfl rfl (Nat.le_refl _) (List.forall_mem_nil _) h.returned
        (List.forall_mem_nil _) (by simp)
    · cases hst
      exact .call h hc rfl rfl rfl rfl rfl (Nat.le_refl _) hnames h.returned
        (List.forall_mem_nil _) (by simp)
  | done => cases hst
  | _ =>
    cases hst
    exact .call h hc rfl rfl rfl rfl rfl (Nat.le_refl _) (List.forall_mem_nil _) h.returned
      (List.forall_mem_nil _) (by simp)

theorem CJobSystem.Scheduled.workStep (h : s.Scheduled) {i : Nat} {x : WorkerAt G}
    (hx : s.workers[i]? = some x) (hst : s.workStep parent i x = some (s', out)) : s'.Scheduled := by
  have hin : x ∈ s.workers := List.mem_of_getElem? hx
  cases x with
  | idle =>
    simp only [CJobSystem.workStep] at hst
    split at hst
    · rename_i top htop
      cases hst
      have hmem := List.argmin_mem htop
      refine .work h hx rfl rfl ?_ rfl rfl rfl (fun i => List.mem_of_mem_erase) fun k hk => ?_
      · have hlength := List.length_erase_add_one hmem
        simp only [CJobSystem.setWorker, WorkerAt.queued, List.length_nil, List.length_singleton]
        omega
      · obtain rfl := List.mem_singleton.mp hk
        exact mem_queued.mpr (.inr (.inl ⟨top, hmem, rfl⟩))
    · split at hst
      · cases hst
        exact .work h hx rfl rfl rfl rfl rfl rfl (fun i => id) (List.forall_mem_nil _)
      · cases hst
  | taken job body =>
    cases hst
    refine .work h hx rfl rfl ?_ rfl rfl rfl (fun i => id) (List.forall_mem_nil _)
    have hpending := h.pending
    have hone := tally_set (f := fun x : WorkerAt G => x.queued.length) (b := .idle) hx
    change _ + 1 = _ + 0 at hone
    change s.pendingJobs - 1 + s.workQueue.length + 1 = s.pendingJobs + s.workQueue.length + 0
    omega
  | between job body =>
    cases hst
    cases body with
    | runner g => exact .work h hx rfl rfl rfl rfl rfl rfl (fun i => id) (List.forall_mem_nil _)
    | other => exact .work h hx rfl rfl rfl rfl rfl rfl (fun i => id) (List.forall_mem_nil _)
  | runner job run =>
    simp only [CJobSystem.workStep, Option.some.injEq, Prod.mk.injEq] at hst
    obtain ⟨rfl, -⟩ := hst
    rw [s.runOne_frame parent run]
    split
    all_goals exact .work h hx rfl rfl rfl rfl rfl rfl (fun i => id) (List.forall_mem_nil _)
  | other job =>
    cases hst
    exact .work h hx rfl rfl rfl rfl rfl rfl (fun i => id) (List.forall_mem_nil _)
  | finishing job =>
    simp only [CJobSystem.workStep] at hst
    split at hst
    · cases hst
    · cases hst
      refine .work h hx rfl rfl rfl ?_ rfl rfl (fun i => id) (List.forall_mem_nil _)
      have hactive := h.active
      have hone := tally_set (f := WorkerAt.active) (b := .idle) hx
      change _ + 1 = _ + 0 at hone
      change s.activeJobs - 1 + 1 = s.activeJobs + 0
      omega
  | exited => cases hst

omit [DecidableEq G] in
theorem CJobSystem.Scheduled.begin (h : s.Scheduled) {c : JobCallAt G}
    (hst : s.begin c = some (s', out)) (hqueued : c.queued = []) (hnames : ∀ k ∈ c.names, k < s.nextJob)
    (hnew : ∀ before, c ≠ .loadingActive before) : s'.Scheduled := by
  cases hst
  refine ⟨?_, h.active, fun d hd k hk => ?_, h.returned, h.keep (fun k hk => ?_) fun before hbefore => ?_⟩
  · simp [h.pending, hqueued]
  · cases List.mem_append.mp hd with
    | inl hold => exact h.below d hold k hk
    | inr hlast => exact hnames k (List.mem_singleton.mp hlast ▸ hk)
  · simpa [queued, hqueued] using Or.inl hk
  · cases List.mem_append.mp hbefore with
    | inl hold => exact .inl hold
    | inr hlast => exact absurd (List.mem_singleton.mp hlast).symm (hnew before)

theorem CJobSystem.Scheduled.step (h : s.Scheduled) {m : JobMove G}
    (hst : s.step parent m = some (s', out)) : s'.Scheduled := by
  cases m with
  | submit g priority => exact h.begin hst rfl (List.forall_mem_nil _) (by simp)
  | wait g => exact h.begin hst rfl (List.forall_mem_nil _) (by simp)
  | cancel g => exact h.begin hst rfl (List.forall_mem_nil _) (by simp)
  | schedule priority => exact h.begin hst rfl (List.forall_mem_nil _) (by simp)
  | waitForAllJobs => exact h.begin hst rfl h.returned (by simp)
  | terminate =>
    cases hst
    exact ⟨h.pending, h.active, h.below, h.returned, h.loaded⟩
  | call index =>
    obtain ⟨c, hc, hst⟩ := Option.bind_eq_some_iff.mp hst
    exact h.callStep hc hst
  | work worker =>
    obtain ⟨x, hx, hst⟩ := Option.bind_eq_some_iff.mp hst
    exact h.workStep hx hst

omit [DecidableEq G] in
theorem CJobSystem.Scheduled.waitsFor (h : s.Scheduled) (m : JobMove G) :
    s.WaitsFor unfinished m ↔ s.WaitsFor CJobSystem.uncounted m := by
  refine forall₂_congr fun before hbefore => forall₃_congr fun hactive k hk => not_congr ?_
  have hcall : .loadingActive before ∈ s.calls := by
    cases m with
    | call index =>
      obtain ⟨c, hc, hload⟩ := Option.bind_eq_some_iff.mp hbefore
      split at hload
      · cases hload
        exact List.mem_of_getElem? hc
      · cases hload
    | _ => cases hbefore
  exact h.uncounted hcall hactive hk

/-- In every run, the predicate of WaitForAllJobs never comes out true while a job
submitted before the wait is unfinished, exactly if at each second load that reads
zero no such job is between its two counters. -/
theorem waitForAllJobs_iff {numThreads : Nat} {ms : List (JobMove G)} {os : List (JobSeen G)}
    (hr : (jobSystem parent).run (.create numThreads) ms = some (s, os)) :
    (jobSystem parent).Along (CJobSystem.WaitsFor CJobSystem.unfinished) (.create numThreads) ms ↔
      (jobSystem parent).Along (CJobSystem.WaitsFor CJobSystem.uncounted) (.create numThreads) ms := by
  have hstart : (CJobSystem.create numThreads : CJobSystem G).Scheduled := by
    refine ⟨?_, ?_, List.forall_mem_nil _, List.forall_mem_nil _, by simp [CJobSystem.create]⟩
    · simp [CJobSystem.create, WorkerAt.queued]
    · simp [CJobSystem.create, WorkerAt.active]
  exact Machine.Along.congr CJobSystem.Scheduled
    (fun s m t o h hst => ⟨h.waitsFor m, fun _ => h.step hst⟩) hstart hr

/-- One job is submitted before the wait, which finds it pending at its first evaluation and done at its second. -/
def awaited : List (JobMove Nat) :=
  JobMove.schedule .normal :: List.replicate 3 (JobMove.call 0) ++ JobMove.waitForAllJobs ::
    List.replicate 2 (JobMove.call 1) ++ List.replicate 5 (JobMove.work 0) ++ List.replicate 3 (JobMove.call 1)

theorem waitForAllJobs_iff_ordered : ∃ s os,
    (jobSystem fun _ : Nat => none).run (.create 1) awaited = some (s, os) ∧ .waitedForAll ∈ os ∧
    (jobSystem fun _ : Nat => none).Along (CJobSystem.WaitsFor CJobSystem.unfinished) (.create 1) awaited := by
  have hrun : ((jobSystem fun _ : Nat => none).run (.create 1) awaited).isSome = true := by decide +kernel
  have hwaited : (((jobSystem fun _ : Nat => none).run (.create 1) awaited).map fun r =>
      decide (.waitedForAll ∈ r.2)) = some true := by decide +kernel
  obtain ⟨⟨s, os⟩, hr⟩ := Option.isSome_iff_exists.mp hrun
  rw [hr, Option.map_some, Option.some.injEq] at hwaited
  exact ⟨s, os, hr, of_decide_eq_true hwaited, (waitForAllJobs_iff hr).mpr (by decide +kernel)⟩

/-- One job is submitted before the wait, and taken before its first load. -/
def gapped : List (JobMove Nat) :=
  JobMove.schedule .normal :: List.replicate 3 (JobMove.call 0) ++
    [JobMove.waitForAllJobs, JobMove.work 0, JobMove.work 0] ++ List.replicate 3 (JobMove.call 1)

/-- The wait returns while the thread that took the job has not begun it. -/
theorem waitForAllJobs_returns_early : ¬ (jobSystem fun _ : Nat => none).Along
    (CJobSystem.WaitsFor CJobSystem.unfinished) (.create 1) gapped := by
  decide +kernel

end TgeCore.Threading
