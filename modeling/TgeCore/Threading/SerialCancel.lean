import TgeCore.Threading.SerialLock

namespace TgeCore.Threading
open Library

variable {I T : Type} [DecidableEq I] [DecidableEq T] {s s' u : CSerialJobQueue I T}
  {os os' : List (SerialSeen I)} {entry : SEntry I}

/-- What is in flight stays so until its result is pushed. -/
theorem SerialBooks.Step.inFlight {b b' : SerialBooks I} {out : SerialSeen I} (h : b.Step out b')
    (hflight : b.inFlight = [entry]) : b'.inFlight = [entry] ∨ out = .pushed entry.job := by
  cases h with
  | take _ _ hnone =>
    rw [hnone] at hflight
    cases hflight
  | push _ hpushed =>
    rw [hpushed] at hflight
    cases hflight
    exact .inr rfl
  | quiet => exact .inl hflight
  | submit => exact .inl hflight
  | discard => exact .inl hflight
  | run => exact .inl hflight
  | poll => exact .inl hflight
  | remove => exact .inl hflight
  | mark => exact .inl hflight
  | flush => exact .inl hflight

theorem inFlight_or_pushed {is : List (SerialMove I T)} (hj : s.Joined) (hflight : s.worker.inFlight = [entry])
    (hr : (serialJobQueue I T).run s is = some (u, os)) :
    u.worker.inFlight = [entry] ∨ .pushed entry.job ∈ os := by
  refine run_books (fun os b => b.inFlight = [entry] ∨ .pushed entry.job ∈ os) ?_ [] hj
    (.inl hflight) hr
  intro os b out b' h hst
  cases h with
  | inr hpushed => exact .inr (List.mem_append_left _ hpushed)
  | inl hflight =>
    cases hst.inFlight hflight with
    | inl hstill => exact .inl hstill
    | inr hpushed => exact .inr (by simp [hpushed])

/-- A Poll with nobody in its way. -/
theorem poll_run {thread : T} (hfree : s.isLocked = false) (hout : s.client thread = .out) :
    ∃ t, (serialJobQueue I T).run s [.poll thread, .client thread, .client thread, .client thread] =
        some (t, [.nothing, .nothing, .returned s.completed.head?, .nothing]) ∧
      t.isLocked = false ∧ t.client thread = .out ∧ t.completed = s.completed.tail := by
  simp [Machine.run, serialJobQueue, CSerialJobQueue.step, CSerialJobQueue.begin, hout,
    CSerialJobQueue.clientStep, CSerialJobQueue.at, hfree]

/-- A thread that polls often enough is given every result that waits. -/
theorem mayGive_completed {thread : T} {job : Nat} (hfree : s.isLocked = false)
    (hout : s.client thread = .out) (hmem : job ∈ s.completed) :
    (serialJobQueue I T).MayGive s (.returned (some job)) := by
  induction hcompleted : s.completed generalizing s with
  | nil =>
    rw [hcompleted] at hmem
    cases hmem
  | cons first rest ih =>
    obtain ⟨t, hrun, htfree, htout, htail⟩ := poll_run hfree hout
    rw [hcompleted] at hmem hrun htail
    cases List.mem_cons.mp hmem with
    | inl hfirst =>
      subst hfirst
      exact ⟨_, _, t, hrun, by simp⟩
    | inr hrest => exact .after hrun (ih htfree htout (by rw [htail]; exact hrest) htail)

/-- A thread that holds the mutex goes on until it has unlocked it. What it takes out on
the way it returns. -/
theorem client_unlocks {thread : T} (hholds : (s.client thread).holds = true) :
    ∃ is os t, (serialJobQueue I T).run s is = some (t, os) ∧ t.isLocked = false ∧ t.worker = s.worker ∧
      (t.client thread = .out ∨ t.client thread = .notifying) ∧
      ∀ job ∈ s.completed, job ∈ t.completed ∨ .returned (some job) ∈ os := by
  cases hc : s.client thread with
  | unlocking =>
    refine ⟨[.client thread], [.nothing], { s.at thread .out with isLocked := false }, ?_, rfl, rfl, ?_, ?_⟩
    · simp [Machine.run, serialJobQueue, CSerialJobQueue.step, CSerialJobQueue.clientStep, hc]
    · simp [CSerialJobQueue.at]
    · exact fun job hjob => .inl hjob
  | unlockingSubmit =>
    refine ⟨[.client thread], [.nothing], { s.at thread .notifying with isLocked := false }, ?_, rfl, rfl, ?_, ?_⟩
    · simp [Machine.run, serialJobQueue, CSerialJobQueue.step, CSerialJobQueue.clientStep, hc]
    · simp [CSerialJobQueue.at]
    · exact fun job hjob => .inl hjob
  | pushing jobId =>
    refine ⟨[.client thread, .client thread], ?_⟩
    simp [Machine.run, serialJobQueue, CSerialJobQueue.step, CSerialJobQueue.clientStep, hc,
      CSerialJobQueue.at]
  | polling =>
    refine ⟨[.client thread, .client thread], ?_⟩
    have htaken : ∀ job ∈ s.completed, job ∈ s.completed.tail ∨ some job = s.completed.head? := by
      intro job hjob
      cases hcompleted : s.completed with
      | nil =>
        rw [hcompleted] at hjob
        cases hjob
      | cons first rest =>
        rw [hcompleted] at hjob
        cases List.mem_cons.mp hjob with
        | inl hfirst => exact .inr (congrArg some hfirst)
        | inr hrest => exact .inl hrest
    simpa [Machine.run, serialJobQueue, CSerialJobQueue.step, CSerialJobQueue.clientStep, hc,
      CSerialJobQueue.at] using htaken
  | cancelling jobId =>
    refine ⟨[.client thread, .client thread], ?_⟩
    by_cases hpending : (s.pending.any fun e => e.jobId = jobId) = true
    · simp [Machine.run, serialJobQueue, CSerialJobQueue.step, CSerialJobQueue.clientStep, hc,
        CSerialJobQueue.at, hpending]
    · simp [Machine.run, serialJobQueue, CSerialJobQueue.step, CSerialJobQueue.clientStep, hc,
        CSerialJobQueue.at, hpending]
  | _ => simp [hc] at hholds

theorem mayGive_notifying {thread : T} {job : Nat} (hfree : s.isLocked = false)
    (hc : s.client thread = .notifying) (hmem : job ∈ s.completed) :
    (serialJobQueue I T).MayGive s (.returned (some job)) := by
  have hnotify : (serialJobQueue I T).step s (.client thread) = some (s.notify.at thread .out, .nothing) := by
    simp [serialJobQueue, CSerialJobQueue.step, CSerialJobQueue.clientStep, hc]
  apply Machine.MayGive.later hnotify
  apply mayGive_completed
  · exact (notify_isLocked s).trans hfree
  · exact Function.update_self thread _ _
  · exact (notify_completed s).symm ▸ hmem

/-- The call that the thread is in returns the result, or leaves it to the next one. -/
theorem mayGive_holds (thread : T) {job : Nat} (hholds : (s.client thread).holds = true)
    (hmem : job ∈ s.completed) : (serialJobQueue I T).MayGive s (.returned (some job)) := by
  obtain ⟨is, os, t, hrun, hfree, -, hplace, hkept⟩ := client_unlocks hholds
  cases hkept job hmem with
  | inr hreturned => exact ⟨is, os, t, hrun, hreturned⟩
  | inl hstill =>
    apply Machine.MayGive.after hrun
    cases hplace with
    | inl hout => exact mayGive_completed hfree hout hstill
    | inr hnotifying => exact mayGive_notifying hfree hnotifying hstill

/-- A thread that is in a call and waits for the mutex locks it first. -/
theorem mayGive_anyClient {thread : T} {job : Nat} (hfree : s.isLocked = false)
    (hholds : (s.client thread).holds = false) (hmem : job ∈ s.completed) :
    (serialJobQueue I T).MayGive s (.returned (some job)) := by
  have hlocks : ∀ inCall : SerialClientAt I, inCall.holds = true →
      (serialJobQueue I T).step s (.client thread) =
        some ({ s.at thread inCall with isLocked := true }, .nothing) →
      (serialJobQueue I T).MayGive s (.returned (some job)) := by
    intro inCall hinside hlock
    apply Machine.MayGive.later hlock
    refine mayGive_holds thread ?_ hmem
    exact (congrArg SerialClientAt.holds (Function.update_self thread inCall s.client)).trans hinside
  cases hc : s.client thread with
  | out => exact mayGive_completed hfree hc hmem
  | notifying => exact mayGive_notifying hfree hc hmem
  | lockingSubmit jobId =>
    apply hlocks (.pushing jobId) rfl
    simp [serialJobQueue, CSerialJobQueue.step, CSerialJobQueue.clientStep, hc, hfree]
  | lockingCancel jobId =>
    apply hlocks (.cancelling jobId) rfl
    simp [serialJobQueue, CSerialJobQueue.step, CSerialJobQueue.clientStep, hc, hfree]
  | lockingPoll =>
    apply hlocks .polling rfl
    simp [serialJobQueue, CSerialJobQueue.step, CSerialJobQueue.clientStep, hc, hfree]
  | _ => simp [hc] at hholds

/-- The worker takes what it has in flight to where a Poll finds it. -/
theorem mayGive_pushing {thread : T} (hholds : (s.client thread).holds = false)
    (hw : s.worker = .pushing entry) :
    (serialJobQueue I T).MayGive s (.returned (some entry.job)) := by
  have hpush : (serialJobQueue I T).step s .worker =
      some ({ s with completed := s.completed ++ [entry.job], worker := .unlocking }, .pushed entry.job) := by
    simp [serialJobQueue, CSerialJobQueue.step, CSerialJobQueue.workerStep, hw]
  apply Machine.MayGive.later hpush
  apply Machine.MayGive.later (i := .worker) rfl
  exact mayGive_anyClient rfl hholds (by simp)

theorem mayGive_completing {thread : T} (hfree : s.isLocked = false)
    (hholds : (s.client thread).holds = false) (hw : s.worker = .completing entry) :
    (serialJobQueue I T).MayGive s (.returned (some entry.job)) := by
  have hlock : (serialJobQueue I T).step s .worker =
      some ({ s with isLocked := true, worker := .pushing entry }, .nothing) := by
    simp [serialJobQueue, CSerialJobQueue.step, CSerialJobQueue.workerStep, hw, hfree]
  apply Machine.MayGive.later hlock
  exact mayGive_pushing hholds rfl

theorem mayGive_running {thread : T} (hfree : s.isLocked = false)
    (hholds : (s.client thread).holds = false) (hw : s.worker = .running entry) :
    (serialJobQueue I T).MayGive s (.returned (some entry.job)) := by
  have hrun : (serialJobQueue I T).step s .worker =
      some ({ s with worker := .completing entry }, .ran entry.job) := by
    simp [serialJobQueue, CSerialJobQueue.step, CSerialJobQueue.workerStep, hw]
  apply Machine.MayGive.later hrun
  exact mayGive_completing hfree hholds rfl

theorem mayGive_popped {thread : T} (hholds : (s.client thread).holds = false)
    (hw : s.worker = .popped entry true) :
    (serialJobQueue I T).MayGive s (.returned (some entry.job)) := by
  have hunlock : (serialJobQueue I T).step s .worker =
      some ({ s with isLocked := false, worker := .running entry }, .nothing) := by
    simp [serialJobQueue, CSerialJobQueue.step, CSerialJobQueue.workerStep, hw]
  apply Machine.MayGive.later hunlock
  exact mayGive_running rfl hholds rfl

omit [DecidableEq I] [DecidableEq T] in
theorem inFlight_eq_singleton {worker : SerialWorkerAt I} (h : worker.inFlight = [entry]) :
    worker = .popped entry true ∨ worker = .running entry ∨ worker = .completing entry ∨
      worker = .pushing entry := by
  unfold SerialWorkerAt.inFlight at h
  split at h
  all_goals cases h
  · exact .inl rfl
  · exact .inr (.inl rfl)
  · exact .inr (.inr (.inl rfl))
  · exact .inr (.inr (.inr rfl))

/-- Whatever is in flight with the mutex free may be returned, to any thread. -/
theorem mayGive_free {thread : T} (hfree : s.isLocked = false) (hholds : (s.client thread).holds = false)
    (hflight : s.worker.inFlight = [entry]) :
    (serialJobQueue I T).MayGive s (.returned (some entry.job)) := by
  rcases inFlight_eq_singleton hflight with hpopped | hrunning | hcompleting | hpushing
  · exact mayGive_popped hholds hpopped
  · exact mayGive_running hfree hholds hrunning
  · exact mayGive_completing hfree hholds hcompleting
  · exact mayGive_pushing hholds hpushing

/-- Whatever is in flight may be returned: if another thread holds the mutex, that one
unlocks it first. -/
theorem mayGive_inFlight {is : List (SerialMove I T)} (hr : (serialJobQueue I T).run {} is = some (s, os))
    (hflight : s.worker.inFlight = [entry]) (thread : T) :
    (serialJobQueue I T).MayGive s (.returned (some entry.job)) := by
  have hexclusive := exclusive_run hr
  cases hlocked : s.isLocked with
  | false => exact mayGive_free hlocked (hexclusive.nobody hlocked (.client thread)) hflight
  | true =>
    obtain ⟨holder, hsome, hholds⟩ := hexclusive
    rw [hlocked] at hsome
    obtain ⟨p, rfl⟩ := Option.isSome_iff_exists.mp hsome.symm
    have hheld := (hholds p).mpr rfl
    cases p with
    | owner =>
      have hstopped : s.owner.stopped = true := by
        cases ho : s.owner <;> simp [CSerialJobQueue.holds, ho] at hheld ⊢
      have hjoined := CSerialJobQueue.Joined.run hr
      rw [hjoined.none (hjoined.stopped hstopped)] at hflight
      cases hflight
    | worker =>
      have hclient : (s.client thread).holds = false := by
        rw [Bool.eq_false_iff]
        exact fun hclient => by cases (hholds (.client thread)).mp hclient
      rcases inFlight_eq_singleton hflight with hpopped | hrunning | hcompleting | hpushing
      · exact mayGive_popped hclient hpopped
      · simp [CSerialJobQueue.holds, hrunning] at hheld
      · simp [CSerialJobQueue.holds, hcompleting] at hheld
      · exact mayGive_pushing hclient hpushing
    | client other =>
      obtain ⟨js, os', t, hrun, hfree, hworker, -, -⟩ := client_unlocks hheld
      have hnobody := (exclusive_run (Machine.run_append hr hrun)).nobody hfree (.client thread)
      apply Machine.MayGive.after hrun
      exact mayGive_free hfree hnobody (by rw [hworker, hflight])

theorem cancelled_worker {thread : T} {jobId : I}
    (hst : s.clientStep thread = some (s', .cancelled jobId)) : s'.worker = s.worker := by
  unfold CSerialJobQueue.clientStep at hst
  repeat' first | split at hst | cases hst
  · rfl
  · rfl

/-- No Cancel that is called or made while a job of its id is in flight has the result
discarded: it is pushed whenever the job completes, and a later Poll can be given it. -/
theorem cancel_inFlight_kept {is : List (SerialMove I T)} {m : SerialMove I T} {out : SerialSeen I}
    {thread : T} (hr : (serialJobQueue I T).run {} is = some (s, os)) (hflight : s.worker.inFlight = [entry])
    (hst : (serialJobQueue I T).step s m = some (s', out))
    (hcancel : m = .cancel thread entry.jobId ∨ m = .client thread ∧ out = .cancelled entry.jobId) :
    (serialJobQueue I T).MayGive s' (.returned (some entry.job)) ∧
      ∀ is' os' u, (serialJobQueue I T).run s' is' = some (u, os') →
        u.worker.inFlight = [entry] ∨ .pushed entry.job ∈ os' := by
  have hr' := Machine.run_concat hr hst
  have hworker : s'.worker = s.worker := by
    rcases hcancel with rfl | ⟨rfl, rfl⟩
    · obtain ⟨-, rfl, -⟩ := begin_eq hst
      rfl
    · exact cancelled_worker hst
  have hstill : s'.worker.inFlight = [entry] := by rw [hworker, hflight]
  constructor
  · exact mayGive_inFlight hr' hstill thread
  · intro is' os' u hrest
    exact inFlight_or_pushed (CSerialJobQueue.Joined.run hr') hstill hrest

/-- The queue is started and given one job, the worker takes it, and a thread that
cancels it has locked the mutex. -/
def cancelledWhileRunning : List (SerialMove String Unit) :=
  [.start, .owner, .owner, .owner, .owner, .submit () "load", .client (), .client (), .client (), .client (),
    .worker, .worker, .worker, .worker, .cancel () "load", .client ()]

theorem cancel_inFlight_kept_running : ∃ s os s',
    (serialJobQueue String Unit).run {} cancelledWhileRunning = some (s, os) ∧
    s.worker = .running ⟨"load", 0⟩ ∧
    (serialJobQueue String Unit).step s (.client ()) = some (s', .cancelled "load") ∧
    (serialJobQueue String Unit).MayGive s' (.returned (some 0)) ∧
    ∀ is' os' u, (serialJobQueue String Unit).run s' is' = some (u, os') →
      u.worker.inFlight = [⟨"load", 0⟩] ∨ .pushed 0 ∈ os' := by
  have hrun : (((serialJobQueue String Unit).run {} cancelledWhileRunning).bind fun r =>
      ((serialJobQueue String Unit).step r.1 (.client ())).map fun next => (r.1.worker, next.2)) =
        some (.running ⟨"load", 0⟩, .cancelled "load") := by decide +kernel
  obtain ⟨⟨s, os⟩, hr, hnext⟩ := Option.bind_eq_some_iff.mp hrun
  obtain ⟨⟨s', out⟩, hst, hseen⟩ := Option.map_eq_some_iff.mp hnext
  obtain ⟨hw, rfl⟩ := Prod.mk.inj hseen
  obtain ⟨hmay, hkept⟩ := cancel_inFlight_kept hr (congrArg SerialWorkerAt.inFlight hw) hst (.inr ⟨rfl, rfl⟩)
  exact ⟨s, os, s', hr, hw, hst, hmay, hkept⟩

/-- The Cancel comes before the work has run, and a Poll is given its result. -/
theorem cancel_inFlight_returned : ∃ s os u os',
    (serialJobQueue String Unit).run {} cancelledWhileRunning = some (s, os) ∧
    s.worker = .running ⟨"load", 0⟩ ∧
    (serialJobQueue String Unit).run s [.client (), .client (), .worker, .worker, .worker, .worker,
      .poll (), .client (), .client ()] = some (u, os') ∧
    os'.filter (· ≠ .nothing) = [.cancelled "load", .ran 0, .pushed 0, .returned (some 0)] := by
  have hrun : (((serialJobQueue String Unit).run {} cancelledWhileRunning).bind fun r =>
      ((serialJobQueue String Unit).run r.1 [.client (), .client (), .worker, .worker, .worker, .worker,
        .poll (), .client (), .client ()]).map fun last => (r.1.worker, last.2.filter (· ≠ .nothing))) =
        some (.running ⟨"load", 0⟩, [.cancelled "load", .ran 0, .pushed 0, .returned (some 0)]) := by
    decide +kernel
  obtain ⟨⟨s, os⟩, hr, hnext⟩ := Option.bind_eq_some_iff.mp hrun
  obtain ⟨⟨u, os'⟩, hr', hseen⟩ := Option.map_eq_some_iff.mp hnext
  obtain ⟨hw, hos'⟩ := Prod.mk.inj hseen
  exact ⟨s, os, u, os', hr, hw, hr', hos'⟩

end TgeCore.Threading
