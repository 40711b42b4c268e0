import TgeCore.Threading.PoolOrder

namespace TgeCore.Threading
open Library

/-- The scheduler with the pool that gThreadPool points to. The work that it hands over is a
closure around a released pointer; the job objects are numbered as they are submitted. -/
structure CJobScheduler where
  pool : Option (CThreadPool Nat)
  submitted : Nat := 0

namespace CJobScheduler

/-- A thread calls SubmitJob, the pool's threads and calls go on, or the pool is deleted. -/
inductive Move where
  | submitJob (null : Bool) (priority : EJobPriority)
  | pool (move : CThreadPool.Move Nat)
  | deletePool
deriving DecidableEq

inductive Seen where
  | nothing
  | queued (job : Nat)
  | executing (job : Nat)
  | destroyed (jobs : List Nat)
deriving DecidableEq

/-- The wrapper owns the object from its start, and destroys it when it comes back. -/
def seen : CThreadPool.Seen Nat → Seen
  | .nothing => .nothing
  | .queued item => .queued item.work
  | .popped _ => .nothing
  | .started item => .executing item.work
  | .finished item => .destroyed [item.work]

/-- A closure that was not run goes without its job: what it captured is a plain pointer. -/
def destroysUnrun (_ : CThreadPool.SWorkItem Nat) : List Nat := []

/-- A call from within SubmitJob, the only one of Execute. -/
def submitJob (s : CJobScheduler) (null : Bool) (priority : EJobPriority) : CJobScheduler × Seen :=
  match null, s.pool with
  | true, _ => (s, .nothing)
  | false, some pool =>
    ({ pool := some (pool.executeBegin (some s.submitted) priority), submitted := s.submitted + 1 }, .nothing)
  | false, none => ({ s with submitted := s.submitted + 1 }, .destroyed [s.submitted])

def step (s : CJobScheduler) : Move → Option (CJobScheduler × Seen)
  | .submitJob null priority => some (s.submitJob null priority)
  | .pool (.execute _ _) => none
  | .pool move =>
    s.pool.bind fun pool => (pool.step move).map fun next => ({ s with pool := some next.1 }, seen next.2)
  | .deletePool =>
    s.pool.bind fun pool =>
      if pool.terminating = .returned then
        some ({ s with pool := none }, .destroyed (pool.workQueue.flatMap destroysUnrun))
      else none

def create (numThreads : Nat) : CJobScheduler := { pool := some (.create numThreads) }

def Seen.destroys : Seen → List Nat
  | .destroyed jobs => jobs
  | _ => []

/-- A call of SubmitJob with a job. -/
def Move.submits : Move → Nat
  | .submitJob false _ => 1
  | _ => 0

def Seen.queues : Seen → Nat
  | .queued _ => 1
  | _ => 0

/-- The job objects that a run has destroyed, as often as it did. -/
def destroyed (os : List Seen) : List Nat := os.flatMap Seen.destroys

end CJobScheduler

theorem CJobScheduler.destroyed_append (os os' : List Seen) : destroyed (os ++ os') = destroyed os ++ destroyed os' :=
  List.flatMap_append

theorem CJobScheduler.destroyed_one (out : Seen) : destroyed [out] = out.destroys :=
  List.append_nil _

def jobScheduler : Machine CJobScheduler CJobScheduler.Move CJobScheduler.Seen := ⟨CJobScheduler.step⟩

namespace CThreadPool
variable {W : Type}

/-- The calls of Execute that have not queued their work. -/
def Locks (s : CThreadPool W) (index : Nat) (work : W) : Prop :=
  ∃ priority, s.executes[index]? = some (.locking work priority)

section Executes
variable [DecidableEq W] {s t : CThreadPool W} {move : Move W} {out : Seen W} {work : W} {index : Nat}

omit [DecidableEq W] in
theorem Locks.of_set {call : ExecuteAt W} {i : Nat} (hcall : ∀ work priority, call ≠ .locking work priority)
    (h : (s.setExecute i call).Locks index work) : s.Locks index work ∧ index ≠ i := by
  obtain ⟨priority, hat⟩ := h
  by_cases hi : i = index
  · subst hi
    rw [setExecute, List.getElem?_set] at hat
    split at hat
    · split at hat
      · exact absurd (Option.some.inj hat) (hcall work priority)
      · cases hat
    · exact absurd rfl ‹_›
  · rw [setExecute, List.getElem?_set_ne hi] at hat
    exact ⟨⟨priority, hat⟩, fun heq => hi heq.symm⟩

/-- A step that no call of Execute begins with leaves the calls that have not queued their
work as they are, but for one that queues it. -/
theorem step_locks (hst : s.step move = some (t, out)) (hbegin : ∀ work priority, move ≠ .execute work priority) :
    ((∀ item, out ≠ .queued item) ∧ ∀ index work, t.Locks index work → s.Locks index work) ∨
      ∃ i item, out = .queued item ∧ s.Locks i item.work ∧
        ∀ index work, t.Locks index work → s.Locks index work ∧ index ≠ i := by
  have hsame (h : t.executes = s.executes ∧ ∀ item, out ≠ .queued item) :
      (∀ item, out ≠ .queued item) ∧ ∀ index work, t.Locks index work → s.Locks index work :=
    ⟨h.2, fun _ _ ⟨priority, hat⟩ => ⟨priority, h.1 ▸ hat⟩⟩
  cases move with
  | execute work priority => exact absurd rfl (hbegin work priority)
  | call i woken =>
    obtain ⟨call, hat, hcall⟩ := Option.bind_eq_some_iff.mp hst
    cases call with
    | locking work priority =>
      cases hcall
      refine .inr ⟨i, _, rfl, ⟨priority, hat⟩, fun index work h => ?_⟩
      exact Locks.of_set (s := { s with workQueue := _ }) (by simp) h
    | notifying =>
      obtain ⟨next, hnext, heq⟩ := Option.map_eq_some_iff.mp hcall
      cases heq
      refine .inl ⟨by simp, fun index work h => ?_⟩
      obtain ⟨priority, hlocks⟩ := (Locks.of_set (by simp) h).1
      exact ⟨priority, notifyOne_executes hnext ▸ hlocks⟩
    | done => cases hcall
  | terminate =>
    simp only [step] at hst
    split at hst
    · cases hst
      exact .inl (hsame ⟨rfl, by simp⟩)
    · cases hst
  | terminating => exact .inl (hsame (terminateStep_executes hst))
  | pop thread top => exact .inl (hsame (popStep_executes hst))
  | work thread =>
    obtain ⟨worker, _, hwork⟩ := Option.bind_eq_some_iff.mp hst
    exact .inl (hsame (workStep_executes hwork))
  | wake thread =>
    obtain ⟨next, hnext, heq⟩ := Option.map_eq_some_iff.mp hst
    cases heq
    exact .inl (hsame ⟨notifyOne_executes hnext, by simp⟩)

end Executes

end CThreadPool

namespace CJobScheduler
open CThreadPool (Sound Attended)

/-- Every job object is in one place: about to be queued, or queued once. -/
structure Owned (submitted : Nat) (pool : CThreadPool Nat) (ps : List (CThreadPool.Seen Nat)) : Prop where
  named : ∀ item, .queued item ∈ ps → item.work < submitted
  called : ∀ index job, pool.Locks index job → job < submitted
  apart : ∀ index job, pool.Locks index job → ∀ item, .queued item ∈ ps → item.work ≠ job
  distinct : ∀ index index' job, pool.Locks index job → pool.Locks index' job → index = index'
  unique : ∀ item item', .queued item ∈ ps → .queued item' ∈ ps → item.work = item'.work → item = item'

section Owned
variable {submitted : Nat} {p q : CThreadPool Nat} {ps : List (CThreadPool.Seen Nat)} {out : CThreadPool.Seen Nat}
  {move : CThreadPool.Move Nat}

theorem Owned.create (numThreads : Nat) : Owned 0 (.create numThreads) [] where
  named _ h := absurd h List.not_mem_nil
  called index job h := by
    obtain ⟨priority, hat⟩ := h
    cases hat
  apart _ _ _ _ h := absurd h List.not_mem_nil
  distinct index _ job h := by
    obtain ⟨priority, hat⟩ := h
    cases hat
  unique _ _ h := absurd h List.not_mem_nil

theorem Owned.step (h : Owned submitted p ps) (hst : p.step move = some (q, out))
    (hbegin : ∀ work priority, move ≠ .execute work priority) : Owned submitted q (ps ++ [out]) := by
  rcases CThreadPool.step_locks hst hbegin with ⟨hout, hlocks⟩ | ⟨i, new, rfl, hnew, hlocks⟩
  · have hmem {item : CThreadPool.SWorkItem Nat} (hitem : .queued item ∈ ps ++ [out]) : .queued item ∈ ps := by
      rcases List.mem_append.mp hitem with hold | hthis
      · exact hold
      · exact absurd (List.mem_singleton.mp hthis).symm (hout item)
    exact ⟨fun item hitem => h.named item (hmem hitem),
      fun index job hl => h.called index job (hlocks index job hl),
      fun index job hl item hitem => h.apart index job (hlocks index job hl) item (hmem hitem),
      fun index index' job hl hl' => h.distinct index index' job (hlocks index job hl) (hlocks index' job hl'),
      fun item item' hitem hitem' => h.unique item item' (hmem hitem) (hmem hitem')⟩
  · have hmem {item : CThreadPool.SWorkItem Nat} (hitem : .queued item ∈ ps ++ [CThreadPool.Seen.queued new]) :
        .queued item ∈ ps ∨ item = new := by
      simpa using hitem
    refine ⟨fun item hitem => ?_, fun index job hl => h.called index job (hlocks index job hl).1,
      fun index job hl item hitem heq => ?_, fun index index' job hl hl' => ?_,
      fun item item' hitem hitem' heq => ?_⟩
    · rcases hmem hitem with hold | rfl
      · exact h.named item hold
      · exact h.called i item.work hnew
    · obtain ⟨hold, hne⟩ := hlocks index job hl
      rcases hmem hitem with hin | rfl
      · exact h.apart index job hold item hin heq
      · exact hne (h.distinct index i job hold (heq ▸ hnew))
    · exact h.distinct index index' job (hlocks index job hl).1 (hlocks index' job hl').1
    · rcases hmem hitem with hin | rfl
      · rcases hmem hitem' with hin' | rfl
        · exact h.unique item item' hin hin' heq
        · exact absurd heq (h.apart i _ hnew item hin)
      · rcases hmem hitem' with hin' | rfl
        · exact absurd heq.symm (h.apart i _ hnew item' hin')
        · rfl

/-- A SubmitJob names the object that it hands over after all those before it. -/
theorem Owned.submit (h : Owned submitted p ps) (priority : EJobPriority) :
    Owned (submitted + 1) (p.executeBegin (some submitted) priority) (ps ++ [.nothing]) := by
  have hmem {item : CThreadPool.SWorkItem Nat} (hitem : .queued item ∈ ps ++ [CThreadPool.Seen.nothing]) :
      .queued item ∈ ps := by
    simpa using hitem
  have hlocks : ∀ index job, (p.executeBegin (some submitted) priority).Locks index job →
      p.Locks index job ∨ index = p.executes.length ∧ job = submitted := by
    rintro index job ⟨_, hat⟩
    rcases Nat.lt_or_ge index p.executes.length with hlt | hge
    · rw [CThreadPool.executeBegin, List.getElem?_append_left hlt] at hat
      exact .inl ⟨_, hat⟩
    · rw [CThreadPool.executeBegin, List.getElem?_append_right hge] at hat
      have hlast := (List.getElem?_eq_some_iff.mp hat).1
      simp only [List.length_singleton] at hlast
      have hzero : index - p.executes.length = 0 := by omega
      rw [hzero] at hat
      cases hat
      exact .inr ⟨by omega, rfl⟩
  refine ⟨fun item hitem => Nat.lt_succ_of_lt (h.named item (hmem hitem)), fun index job hl => ?_,
    fun index job hl item hitem heq => ?_, fun index index' job hl hl' => ?_,
    fun item item' hitem hitem' => h.unique item item' (hmem hitem) (hmem hitem')⟩
  · rcases hlocks index job hl with hold | ⟨_, rfl⟩
    · exact Nat.lt_succ_of_lt (h.called index job hold)
    · exact Nat.lt_succ_self _
  · rcases hlocks index job hl with hold | ⟨_, rfl⟩
    · exact h.apart index job hold item (hmem hitem) heq
    · exact Nat.ne_of_lt (h.named item (hmem hitem)) heq
  · rcases hlocks index job hl with hold | ⟨hindex, rfl⟩
    · rcases hlocks index' job hl' with hold' | ⟨_, rfl⟩
      · exact h.distinct index index' job hold hold'
      · exact absurd (h.called index _ hold) (Nat.lt_irrefl _)
    · rcases hlocks index' _ hl' with hold' | ⟨hindex', _⟩
      · exact absurd (h.called index' _ hold') (Nat.lt_irrefl _)
      · exact hindex.trans hindex'.symm

end Owned

/-- The job whose wrapper comes back with a step of the pool. -/
def finishedJob : CThreadPool.Seen Nat → Option Nat
  | .finished item => some item.work
  | _ => none

section Follow
variable {s t : CJobScheduler} {p q : CThreadPool Nat} {ps : List (CThreadPool.Seen Nat)} {os : List Seen}
  {move : Move} {out : Seen} {is : List Move}

theorem seen_destroys (out : CThreadPool.Seen Nat) : (seen out).destroys = [out].filterMap finishedJob := by
  cases out <;> rfl

theorem step_pool {move : CThreadPool.Move Nat} (hst : s.step (.pool move) = some (t, out)) :
    (∀ work priority, move ≠ .execute work priority) ∧ ∃ p q pout, s.pool = some p ∧
      p.step move = some (q, pout) ∧ t = { s with pool := some q } ∧ out = seen pout := by
  have hbegin : ∀ work priority, move ≠ .execute work priority := by
    rintro work priority rfl
    cases hst
  have hstep : s.step (.pool move) =
      s.pool.bind fun pool => (pool.step move).map fun next => ({ s with pool := some next.1 }, seen next.2) := by
    cases move with
    | execute work priority => exact absurd rfl (hbegin work priority)
    | _ => rfl
  obtain ⟨p, hp, hmap⟩ := Option.bind_eq_some_iff.mp (hstep.symm.trans hst)
  obtain ⟨⟨q, pout⟩, hq, heq⟩ := Option.map_eq_some_iff.mp hmap
  cases heq
  exact ⟨hbegin, p, q, pout, hp, hq, rfl, rfl⟩

/-- The pool's calls of Execute and what they queue, by number. -/
def SameCalls (is : List Move) (os : List Seen) (moves : List (CThreadPool.Move Nat))
    (ps : List (CThreadPool.Seen Nat)) : Prop :=
  tally Move.submits is = tally (CThreadPool.Move.asks fun _ _ => 1) moves ∧
    tally Seen.queues os = tally (CThreadPool.Seen.queues fun _ _ => 1) ps

theorem seen_queues (out : CThreadPool.Seen Nat) :
    (seen out).queues = CThreadPool.Seen.queues (fun _ _ => 1) out := by
  cases out <;> rfl

/-- A step after which there is a pool is one of the pool, or none. -/
theorem step_follows (hst : s.step move = some (t, out)) (hq : t.pool = some q) :
    ∃ p moves ps, s.pool = some p ∧ (threadPool Nat).run p moves = some (q, ps) ∧
      out.destroys = ps.filterMap finishedJob ∧ SameCalls [move] [out] moves ps ∧
      ∀ before, Owned s.submitted p before → Owned t.submitted q (before ++ ps) := by
  cases move with
  | submitJob null priority =>
    cases null with
    | true =>
      obtain ⟨rfl, rfl⟩ : s = t ∧ Seen.nothing = out := by simpa [step, submitJob] using hst
      exact ⟨q, [], [], hq, rfl, rfl, ⟨rfl, rfl⟩, fun before h => by simpa using h⟩
    | false =>
      cases hpool : s.pool with
      | none =>
        simp only [step, submitJob, hpool] at hst
        cases hst
        cases hq
      | some p =>
        simp only [step, submitJob, hpool] at hst
        cases hst
        cases hq
        exact ⟨p, [.execute (some s.submitted) priority], [.nothing], rfl, rfl, rfl, ⟨rfl, rfl⟩,
          fun _ h => h.submit priority⟩
  | pool move =>
    obtain ⟨hbegin, p, _, pout, hp, hstep, rfl, rfl⟩ := step_pool hst
    cases hq
    have hcalls : SameCalls [.pool move] [seen pout] [move] [pout] := by
      refine ⟨?_, ?_⟩
      · cases move with
        | execute work priority => exact absurd rfl (hbegin work priority)
        | _ => rfl
      · rw [tally_cons, tally_cons, seen_queues]
        rfl
    exact ⟨p, [move], [pout], hp, Machine.run_cons_eq_some.mpr ⟨_, _, _, hstep, rfl, rfl⟩, seen_destroys pout,
      hcalls, fun _ h => h.step hstep hbegin⟩
  | deletePool =>
    obtain ⟨p, _, hdelete⟩ := Option.bind_eq_some_iff.mp hst
    split at hdelete
    · cases hdelete
      cases hq
    · cases hdelete

/-- The pool's own run, with what it finishes, under a run after which there is a pool. -/
theorem run_follows (hr : jobScheduler.run s is = some (t, os)) (hq : t.pool = some q) :
    ∃ p moves ps, s.pool = some p ∧ (threadPool Nat).run p moves = some (q, ps) ∧
      destroyed os = ps.filterMap finishedJob ∧ SameCalls is os moves ps ∧
      ∀ before, Owned s.submitted p before → Owned t.submitted q (before ++ ps) := by
  induction is generalizing s os with
  | nil =>
    obtain ⟨rfl, rfl⟩ : s = t ∧ [] = os := by simpa [Machine.run] using hr
    exact ⟨q, [], [], hq, rfl, rfl, ⟨rfl, rfl⟩, fun before h => by simpa using h⟩
  | cons i is ih =>
    obtain ⟨s', out, os', hst, hrest, rfl⟩ := Machine.run_cons_eq_some.mp hr
    obtain ⟨p', moves', ps', hp', hrun', hdestroyed', hcalls', howned'⟩ := ih hrest
    obtain ⟨p, moves, ps, hp, hrun, hdestroys, hcalls, howned⟩ := step_follows hst hp'
    refine ⟨p, moves ++ moves', ps ++ ps', hp, Machine.run_append hrun hrun', ?_, ⟨?_, ?_⟩, fun before h => ?_⟩
    · rw [List.filterMap_append, ← hdestroys, ← hdestroyed']
      rfl
    · rw [tally_append, ← hcalls.1, ← hcalls'.1]
      rfl
    · rw [tally_append, ← hcalls.2, ← hcalls'.2]
      rfl
    · rw [← List.append_assoc]
      exact howned' _ (howned before h)

end Follow

section Results
variable {submitted n : Nat} {q : CThreadPool Nat} {ps : List (CThreadPool.Seen Nat)}

/-- A job is destroyed as often as its item is finished. -/
theorem Owned.count_finished (h : Owned submitted q ps) (hsound : Sound n ps q)
    {item : CThreadPool.SWorkItem Nat} (hitem : .queued item ∈ ps) :
    (ps.filterMap finishedJob).count item.work = ps.count (.finished item) := by
  rw [List.count_filterMap, List.count]
  apply List.countP_congr
  intro out hout
  cases out with
  | finished other =>
    have hfinished := List.count_pos_iff.mpr hout
    have hqueued : .queued other ∈ ps := by
      apply List.count_pos_iff.mp
      have := hsound.books.queue other
      have := hsound.books.work other
      omega
    have hsame : other.work = item.work ↔ other = item :=
      ⟨fun heq => h.unique other item hqueued hitem heq, fun heq => heq ▸ rfl⟩
    simp [finishedJob, hsame]
  | _ => simp [finishedJob]

theorem seen_queued {out : CThreadPool.Seen Nat} {job : Nat} (h : seen out = .queued job) :
    ∃ item, out = .queued item ∧ item.work = job := by
  cases out with
  | queued item => exact ⟨item, rfl, Seen.queued.inj h⟩
  | _ => cases h

/-- A step that queues a job is the pool's. -/
theorem step_queued {s t : CJobScheduler} {move : Move} {job : Nat} (hst : s.step move = some (t, .queued job)) :
    ∃ p q move item, s.pool = some p ∧ p.step move = some (q, .queued item) ∧ item.work = job ∧
      (∀ work priority, move ≠ .execute work priority) ∧ t = { s with pool := some q } := by
  cases move with
  | submitJob null priority =>
    cases null with
    | true => cases hst
    | false =>
      cases hpool : s.pool with
      | none =>
        simp only [step, submitJob, hpool] at hst
        cases hst
      | some p =>
        simp only [step, submitJob, hpool] at hst
        cases hst
  | pool move =>
    obtain ⟨hbegin, p, q, pout, hp, hstep, rfl, hseen⟩ := step_pool hst
    obtain ⟨item, rfl, hwork⟩ := seen_queued hseen.symm
    exact ⟨p, q, move, item, hp, hstep, hwork, hbegin, rfl⟩
  | deletePool =>
    obtain ⟨p, _, hdelete⟩ := Option.bind_eq_some_iff.mp hst
    split at hdelete
    · cases hdelete
    · cases hdelete

/-- The deletion destroys no job. -/
theorem step_deletes {s t : CJobScheduler} {out : Seen} (hst : s.step .deletePool = some (t, out)) :
    ∃ p, s.pool = some p ∧ p.terminating = .returned ∧ out.destroys = [] := by
  obtain ⟨p, hp, hdelete⟩ := Option.bind_eq_some_iff.mp hst
  split at hdelete
  · rename_i hreturned
    cases hdelete
    exact ⟨p, hp, hreturned, List.flatMap_eq_nil_iff.mpr fun _ _ => rfl⟩
  · cases hdelete

/-- While there is a pool, every SubmitJob with a job has queued it, but for those whose call of
Execute is before its locked section. -/
theorem run_queued {numThreads : Nat} {is : List Move} {os : List Seen} {t : CJobScheduler}
    (hr : jobScheduler.run (create numThreads) is = some (t, os)) {pool : CThreadPool Nat}
    (hpool : t.pool = some pool) :
    tally Move.submits is = tally Seen.queues os + pool.asked fun _ _ => 1 := by
  obtain ⟨p, moves, ps, hp, hrun, -, hcalls, -⟩ := run_follows hr hpool
  obtain rfl : CThreadPool.create numThreads = p := Option.some.inj hp
  rw [hcalls.1, hcalls.2, ← CThreadPool.run_asked hrun]
  exact (Nat.zero_add _).symm

/-- When the pool has been terminated and deleted, a job that was queued has been destroyed
exactly once if and only if a worker was left when it was queued; before Terminate is
called, that is if the pool has workers at all. Until the deletion every SubmitJob that has
come past its push has queued its job. -/
theorem destroyed_once_iff {numThreads job : Nat} {is js : List Move} {os os' : List Seen} {move : Move} {out : Seen}
    {s s' t u : CJobScheduler} (hr : jobScheduler.run (create numThreads) is = some (s, os))
    (hst : s.step move = some (s', .queued job)) (hr' : jobScheduler.run s' js = some (t, os'))
    (hdelete : t.step .deletePool = some (u, out)) :
    ((destroyed (os ++ [.queued job] ++ os' ++ [out])).count job = 1 ↔
        ∃ pool, s.pool = some pool ∧ pool.Attended) ∧
      (∀ pool, s.pool = some pool → pool.terminating = .uncalled → (pool.Attended ↔ 0 < numThreads)) ∧
      ∀ pool, t.pool = some pool → tally Move.submits (is ++ move :: js) =
        tally Seen.queues (os ++ .queued job :: os') + pool.asked fun _ _ => 1 := by
  have hwhole := Machine.run_append hr (Machine.run_cons_eq_some.mpr ⟨s', _, os', hst, hr', rfl⟩)
  obtain ⟨p, q, pmove, item, hp, hstep, rfl, hbegin, rfl⟩ := step_queued hst
  obtain ⟨p₀, moves, ps, hp₀, hrun, hdestroyed, -, howned⟩ := run_follows hr hp
  obtain rfl : CThreadPool.create numThreads = p₀ := Option.some.inj hp₀
  obtain ⟨last, hlast, hreturned, hnone⟩ := step_deletes hdelete
  obtain ⟨_, moves', ps', hq, hrun', hdestroyed', -, howned'⟩ := run_follows hr' hlast
  cases hq
  have hsound : p.Sound numThreads ps := (Sound.create numThreads).run hrun
  have hqueued : q.Sound numThreads (ps ++ [.queued item]) := hsound.step hstep
  have hends : last.Sound numThreads (ps ++ [.queued item] ++ ps') := hqueued.run hrun'
  have howns : Owned t.submitted last (ps ++ [.queued item] ++ ps') :=
    howned' _ ((howned [] (.create numThreads)).step hstep hbegin)
  have hin : CThreadPool.Seen.queued item ∈ ps ++ [.queued item] ++ ps' := by simp
  have hcount := howns.count_finished hends hin
  have hall : destroyed (os ++ [.queued item.work] ++ os' ++ [out]) =
      (ps ++ [CThreadPool.Seen.queued item] ++ ps').filterMap finishedJob := by
    rw [destroyed_append, destroyed_append, destroyed_append, hdestroyed, hdestroyed', destroyed_one, destroyed_one,
      hnone, List.filterMap_append, List.filterMap_append, List.append_nil]
    rfl
  refine ⟨?_, fun pool hpool => ?_, fun pool hpool => run_queued hwhole hpool⟩
  · rw [hall, hcount, hsound.finished_iff hstep hrun' hreturned]
    constructor
    · exact fun hattended => ⟨p, hp, hattended⟩
    · rintro ⟨pool, hpool, hattended⟩
      obtain rfl : p = pool := Option.some.inj (hp.symm.trans hpool)
      exact hattended
  · obtain rfl : p = pool := Option.some.inj (hp.symm.trans hpool)
    exact hsound.attended_iff

/-- A job has been submitted, and its item is about to be queued. -/
def submitting (numThreads : Nat) : CJobScheduler := ((create numThreads).submitJob false .normal).1

/-- The job's item has been queued. -/
def waiting (numThreads : Nat) : CJobScheduler where
  pool := some
    { threads := List.replicate numThreads .locking
      workQueue := [⟨0, .normal, 0, 0⟩]
      nextSequence := 1
      executes := [.notifying]
      queued := 1 }
  submitted := 1

/-- Terminate has come back, with what is left in the queue. -/
def terminated (left : List (CThreadPool.SWorkItem Nat)) : CJobScheduler where
  pool := some
    { threads := []
      workQueue := left
      nextSequence := 1
      shouldTerminate := true
      executes := [.notifying]
      terminating := .returned
      queued := 1 }
  submitted := 1

/-- The worker runs the job that was queued, and Terminate waits for it. -/
def runsAndTerminates : List Move :=
  [Move.pool (.pop 0 0), Move.pool (.work 0), Move.pool (.work 0), Move.pool .terminate, Move.pool .terminating,
    Move.pool .terminating, Move.pool (.work 0), Move.pool .terminating, Move.pool .terminating]

def ranAndTerminated : List Seen :=
  Seen.nothing :: Seen.executing 0 :: Seen.destroyed [0] :: List.replicate 6 Seen.nothing

theorem destroyed_once_iff_worker :
    ((destroyed ([Seen.nothing] ++ [Seen.queued 0] ++ ranAndTerminated ++ [Seen.destroyed []])).count 0 = 1 ↔
      ∃ pool, (submitting 1).pool = some pool ∧ pool.Attended) ∧
    (∀ pool, (submitting 1).pool = some pool → pool.terminating = .uncalled → (pool.Attended ↔ 0 < 1)) ∧
    ∀ pool, (terminated []).pool = some pool →
      tally Move.submits ([Move.submitJob false .normal] ++ Move.pool (.call 0 none) :: runsAndTerminates) =
        tally Seen.queues ([Seen.nothing] ++ Seen.queued 0 :: ranAndTerminated) + pool.asked fun _ _ => 1 := by
  have hr : jobScheduler.run (create 1) [Move.submitJob false .normal] = some (submitting 1, [Seen.nothing]) := rfl
  have hst : (submitting 1).step (.pool (.call 0 none)) = some (waiting 1, .queued 0) := rfl
  have hr' : jobScheduler.run (waiting 1) runsAndTerminates = some (terminated [], ranAndTerminated) := rfl
  have hdelete : (terminated []).step .deletePool = some ({ terminated [] with pool := none }, .destroyed []) := rfl
  exact destroyed_once_iff hr hst hr' hdelete

/-- Without workers the queue goes with the pool, and the job stays behind. -/
theorem unrun_job_leaks : ¬∀ numThreads is os t u out job,
    jobScheduler.run (create numThreads) is = some (t, os) → t.step .deletePool = some (u, out) →
      .queued job ∈ os → (destroyed (os ++ [out])).count job = 1 := by
  intro h
  have hr : jobScheduler.run (create 0) [.submitJob false .normal, .pool (.call 0 none), .pool .terminate,
      .pool .terminating, .pool .terminating, .pool .terminating] =
      some (terminated [⟨0, .normal, 0, 0⟩], [.nothing, .queued 0, .nothing, .nothing, .nothing, .nothing]) := rfl
  have hone := h 0 _ _ _ _ _ 0 hr rfl (by decide)
  revert hone
  decide

end Results

end CJobScheduler

end TgeCore.Threading
