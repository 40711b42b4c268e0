import Mathlib.Data.Finset.Basic
import TgeCore.Threading.SerialJobQueue

namespace TgeCore.Threading
open Library

section Books
variable {I T : Type}

/-- The entry that the worker is to process, from its pop to the push of its result. -/
def SerialWorkerAt.inFlight : SerialWorkerAt I → List (SEntry I)
  | .popped entry true => [entry]
  | .running entry => [entry]
  | .completing entry => [entry]
  | .pushing entry => [entry]
  | _ => []

/-- The job in flight whose work has been run. -/
def SerialWorkerAt.finished : SerialWorkerAt I → List Nat
  | .completing entry => [entry.job]
  | .pushing entry => [entry.job]
  | _ => []

/-- What a serial queue keeps of its jobs. Neither threads nor the lock are in it. -/
@[ext]
structure SerialBooks (I : Type) where
  pending : List (SEntry I)
  cancelled : Finset I
  inFlight : List (SEntry I)
  finished : List Nat
  completed : List Nat
  nextJob : Nat

/-- What may happen to the jobs, and what the queue's users see of it. -/
inductive SerialBooks.Step [DecidableEq I] : SerialBooks I → SerialSeen I → SerialBooks I → Prop where
  | quiet {b : SerialBooks I} : Step b .nothing b
  | submit {b : SerialBooks I} (jobId : I) :
      Step b (.submitted ⟨jobId, b.nextJob⟩)
        { b with pending := b.pending ++ [⟨jobId, b.nextJob⟩], nextJob := b.nextJob + 1 }
  | discard {b : SerialBooks I} {entry : SEntry I} {rest : List (SEntry I)}
      (hpending : b.pending = entry :: rest) (hmarked : entry.jobId ∈ b.cancelled) :
      Step b (.discarded entry.job)
        { b with pending := rest, cancelled := b.cancelled.erase entry.jobId }
  | take {b : SerialBooks I} {entry : SEntry I} {rest : List (SEntry I)}
      (hpending : b.pending = entry :: rest) (hmarked : entry.jobId ∉ b.cancelled)
      (hnone : b.inFlight = []) : Step b .nothing { b with pending := rest, inFlight := [entry] }
  | run {b : SerialBooks I} (entry : SEntry I) (hflight : b.inFlight = [entry])
      (hnone : b.finished = []) : Step b (.ran entry.job) { b with finished := [entry.job] }
  | push {b : SerialBooks I} (entry : SEntry I) (hflight : b.inFlight = [entry])
      (hfinished : b.finished = [entry.job]) :
      Step b (.pushed entry.job)
        { b with inFlight := [], finished := [], completed := b.completed ++ [entry.job] }
  | poll {b : SerialBooks I} :
      Step b (.returned b.completed.head?) { b with completed := b.completed.tail }
  | remove {b : SerialBooks I} {jobId : I} (hpending : ∃ e ∈ b.pending, e.jobId = jobId) :
      Step b (.cancelled jobId) { b with pending := b.pending.filter fun e => e.jobId ≠ jobId }
  | mark {b : SerialBooks I} {jobId : I} (hpending : ∀ e ∈ b.pending, e.jobId ≠ jobId) :
      Step b (.cancelled jobId) { b with cancelled := insert jobId b.cancelled }
  | flush {b : SerialBooks I} (hnone : b.inFlight = []) :
      Step b .flushed { b with pending := [], cancelled := ∅, completed := [] }

def CSerialJobQueue.books (s : CSerialJobQueue I T) : SerialBooks I where
  pending := s.pending
  cancelled := s.cancelled
  inFlight := s.worker.inFlight
  finished := s.worker.finished
  completed := s.completed
  nextJob := s.nextJob

/-- Start has found the queue stopped, or Flush's Stop is over. -/
@[simp] def SerialOwnerAt.stopped : SerialOwnerAt → Bool
  | .clearingStop => true
  | .settingRunning => true
  | .lockingFlush => true
  | .clearing => true
  | .unlockingFlush => true
  | _ => false

/-- There is a worker thread only while the queue is running, and none before it is
launched and after it is joined. -/
structure CSerialJobQueue.Joined (s : CSerialJobQueue I T) : Prop where
  none : s.isRunning = false → s.worker = .none
  stopped : s.owner.stopped = true → s.isRunning = false
  launching : s.owner = .launching → s.isRunning = true ∧ s.worker = .none
  resetting : ∀ flush, s.owner = .resetting flush → s.worker = .none

end Books

@[simp] theorem afterStop_true : afterStop true = .lockingFlush := rfl

@[simp] theorem afterStop_false : afterStop false = .idle := rfl

section Notify
variable {I T : Type}

/-- A notify changes nothing but where the worker is. -/
theorem notify_frame (s : CSerialJobQueue I T) : s.notify = { s with worker := s.notify.worker } := by
  unfold CSerialJobQueue.notify
  split
  · rfl
  · rfl

@[simp] theorem notify_isRunning (s : CSerialJobQueue I T) : s.notify.isRunning = s.isRunning := by
  rw [notify_frame]

@[simp] theorem notify_shouldStop (s : CSerialJobQueue I T) : s.notify.shouldStop = s.shouldStop := by
  rw [notify_frame]

@[simp] theorem notify_owner (s : CSerialJobQueue I T) : s.notify.owner = s.owner := by
  rw [notify_frame]

@[simp] theorem notify_isLocked (s : CSerialJobQueue I T) : s.notify.isLocked = s.isLocked := by
  rw [notify_frame]

@[simp] theorem notify_client (s : CSerialJobQueue I T) : s.notify.client = s.client := by
  rw [notify_frame]

@[simp] theorem notify_completed (s : CSerialJobQueue I T) : s.notify.completed = s.completed := by
  rw [notify_frame]

@[simp] theorem notify_pending (s : CSerialJobQueue I T) : s.notify.pending = s.pending := by
  rw [notify_frame]

/-- A notify wakes the worker if it is blocked. -/
theorem notify_worker (s : CSerialJobQueue I T) :
    s.worker = .blocked ∧ s.notify.worker = .locking ∨
      s.worker ≠ .blocked ∧ s.notify.worker = s.worker := by
  unfold CSerialJobQueue.notify
  split
  · rename_i hw
    exact .inl ⟨hw, rfl⟩
  · rename_i hw
    exact .inr ⟨hw, rfl⟩

theorem notify_none {s : CSerialJobQueue I T} (h : s.worker = .none) : s.notify.worker = .none := by
  obtain ⟨hw, -⟩ | ⟨-, hsame⟩ := notify_worker s
  · rw [h] at hw
    cases hw
  · rw [hsame, h]

@[simp] theorem notify_books (s : CSerialJobQueue I T) : s.notify.books = s.books := by
  unfold CSerialJobQueue.notify
  split
  · rename_i hw
    simp [CSerialJobQueue.books, hw, SerialWorkerAt.inFlight, SerialWorkerAt.finished]
  · rfl

end Notify

variable {I T : Type} [DecidableEq I] {s s' : CSerialJobQueue I T} {out : SerialSeen I}

theorem SerialBooks.Step.of_eq {b b' : SerialBooks I} (h : b' = b) : b.Step .nothing b' :=
  h ▸ .quiet

/-- The worker goes on with what it has in hand. -/
theorem SerialBooks.Step.worker (isLocked : Bool) (worker : SerialWorkerAt I)
    (hflight : worker.inFlight = s.worker.inFlight) (hfinished : worker.finished = s.worker.finished) :
    s.books.Step .nothing ({ s with isLocked, worker } : CSerialJobQueue I T).books := by
  apply SerialBooks.Step.of_eq
  simp [CSerialJobQueue.books, hflight, hfinished]

/-- The worker takes the first entry, or discards it by its mark. -/
theorem leaving_books (hw : s.worker = .leaving) (h : s.workerStep = some (s', out)) :
    s.books.Step out s'.books := by
  simp only [CSerialJobQueue.workerStep, hw] at h
  split at h
  · cases h
    exact .worker _ _ (by rw [hw]; rfl) (by rw [hw]; rfl)
  · split at h
    · cases h
    · rename_i entry rest hpending
      split at h
      · rename_i hmarked
        cases h
        have hdiscard := SerialBooks.Step.discard (b := s.books) hpending hmarked
        simpa [CSerialJobQueue.books, hw, SerialWorkerAt.inFlight, SerialWorkerAt.finished] using hdiscard
      · rename_i hmarked
        cases h
        have htake := SerialBooks.Step.take (b := s.books) hpending hmarked
          (by simp [CSerialJobQueue.books, hw, SerialWorkerAt.inFlight])
        simpa [CSerialJobQueue.books, hw, SerialWorkerAt.inFlight, SerialWorkerAt.finished] using htake

theorem workerStep_books (h : s.workerStep = some (s', out)) : s.books.Step out s'.books := by
  cases hw : s.worker with
  | leaving => exact leaving_books hw h
  | running entry =>
    simp only [CSerialJobQueue.workerStep, hw] at h
    cases h
    have hrun := SerialBooks.Step.run (b := s.books) entry
      (by simp [CSerialJobQueue.books, hw, SerialWorkerAt.inFlight])
      (by simp [CSerialJobQueue.books, hw, SerialWorkerAt.finished])
    simpa [CSerialJobQueue.books, hw, SerialWorkerAt.inFlight, SerialWorkerAt.finished] using hrun
  | pushing entry =>
    simp only [CSerialJobQueue.workerStep, hw] at h
    cases h
    have hpush := SerialBooks.Step.push (b := s.books) entry
      (by simp [CSerialJobQueue.books, hw, SerialWorkerAt.inFlight])
      (by simp [CSerialJobQueue.books, hw, SerialWorkerAt.finished])
    simpa [CSerialJobQueue.books, hw, SerialWorkerAt.inFlight, SerialWorkerAt.finished] using hpush
  | locking =>
    simp only [CSerialJobQueue.workerStep, hw] at h
    split at h
    · cases h
    · cases h
      exact .worker _ _ (by rw [hw]; rfl) (by rw [hw]; rfl)
  | completing entry =>
    simp only [CSerialJobQueue.workerStep, hw] at h
    split at h
    · cases h
    · cases h
      exact .worker _ _ (by rw [hw]; rfl) (by rw [hw]; rfl)
  | evaluating =>
    simp only [CSerialJobQueue.workerStep, hw] at h
    cases h
    apply SerialBooks.Step.worker
    · rw [hw]
      split
      · rfl
      · rfl
    · rw [hw]
      split
      · rfl
      · rfl
  | popped entry shouldProcess =>
    simp only [CSerialJobQueue.workerStep, hw] at h
    cases h
    apply SerialBooks.Step.worker
    · rw [hw]
      cases shouldProcess with
      | true => rfl
      | false => rfl
    · rw [hw]
      cases shouldProcess with
      | true => rfl
      | false => rfl
  | willBlock =>
    simp only [CSerialJobQueue.workerStep, hw] at h
    cases h
    exact .worker _ _ (by rw [hw]; rfl) (by rw [hw]; rfl)
  | unlocking =>
    simp only [CSerialJobQueue.workerStep, hw] at h
    cases h
    exact .worker _ _ (by rw [hw]; rfl) (by rw [hw]; rfl)
  | exiting =>
    simp only [CSerialJobQueue.workerStep, hw] at h
    cases h
    exact .worker _ _ (by rw [hw]; rfl) (by rw [hw]; rfl)
  | none =>
    simp only [CSerialJobQueue.workerStep, hw] at h
    cases h
  | blocked =>
    simp only [CSerialJobQueue.workerStep, hw] at h
    cases h
  | exited =>
    simp only [CSerialJobQueue.workerStep, hw] at h
    cases h

theorem clientStep_books [DecidableEq T] {thread : T} (h : s.clientStep thread = some (s', out)) :
    s.books.Step out s'.books := by
  cases hc : s.client thread with
  | out =>
    simp only [CSerialJobQueue.clientStep, hc] at h
    cases h
  | lockingSubmit jobId =>
    simp only [CSerialJobQueue.clientStep, hc] at h
    split at h
    · cases h
    · cases h
      exact .quiet
  | pushing jobId =>
    simp only [CSerialJobQueue.clientStep, hc] at h
    cases h
    exact SerialBooks.Step.submit (b := s.books) jobId
  | unlockingSubmit =>
    simp only [CSerialJobQueue.clientStep, hc] at h
    cases h
    exact .quiet
  | notifying =>
    simp only [CSerialJobQueue.clientStep, hc] at h
    cases h
    exact .of_eq (notify_books s)
  | lockingPoll =>
    simp only [CSerialJobQueue.clientStep, hc] at h
    split at h
    · cases h
    · cases h
      exact .quiet
  | polling =>
    simp only [CSerialJobQueue.clientStep, hc] at h
    cases h
    exact SerialBooks.Step.poll (b := s.books)
  | lockingCancel jobId =>
    simp only [CSerialJobQueue.clientStep, hc] at h
    split at h
    · cases h
    · cases h
      exact .quiet
  | cancelling jobId =>
    simp only [CSerialJobQueue.clientStep, hc] at h
    split at h
    · rename_i hpending
      cases h
      exact SerialBooks.Step.remove (b := s.books) (by simpa [CSerialJobQueue.books] using hpending)
    · rename_i hpending
      cases h
      exact SerialBooks.Step.mark (b := s.books) (by simpa [CSerialJobQueue.books] using hpending)
  | unlocking =>
    simp only [CSerialJobQueue.clientStep, hc] at h
    cases h
    exact .quiet

omit [DecidableEq I] in
theorem CSerialJobQueue.Joined.init : ({} : CSerialJobQueue I T).Joined :=
  ⟨fun _ => rfl, by simp, by simp, by simp⟩

omit [DecidableEq I] in
/-- A step that leaves the owner where it is keeps this if it makes no worker. -/
theorem CSerialJobQueue.Joined.frame (h : s.Joined) (hrunning : s'.isRunning = s.isRunning)
    (howner : s'.owner = s.owner) (hworker : s.worker = .none → s'.worker = .none) : s'.Joined := by
  refine ⟨?_, ?_, ?_, ?_⟩
  · rw [hrunning]
    exact fun hidle => hworker (h.none hidle)
  · rw [hrunning, howner]
    exact h.stopped
  · rw [hrunning, howner]
    exact fun hlaunching => ⟨(h.launching hlaunching).1, hworker (h.launching hlaunching).2⟩
  · rw [howner]
    exact fun flush hresetting => hworker (h.resetting flush hresetting)

omit [DecidableEq I] in
/-- Stop is over, and Flush goes on from there. -/
theorem CSerialJobQueue.Joined.afterStop (hnone : s.isRunning = false → s.worker = .none)
    (hrunning : s.isRunning = false) (flush : Bool) : { s with owner := afterStop flush }.Joined := by
  cases flush with
  | true => exact ⟨hnone, fun _ => hrunning, by simp, by simp⟩
  | false => exact ⟨hnone, by simp, by simp, by simp⟩

/-- A worker's step changes nothing of the owner's, and there is a worker. -/
theorem workerStep_frame (h : s.workerStep = some (s', out)) :
    s.worker ≠ .none ∧ s'.isRunning = s.isRunning ∧ s'.owner = s.owner := by
  constructor
  · intro hnone
    simp [CSerialJobQueue.workerStep, hnone] at h
  · unfold CSerialJobQueue.workerStep at h
    repeat' first | split at h | cases h
    all_goals exact ⟨rfl, rfl⟩

theorem CSerialJobQueue.Joined.workerStep (h : s.Joined) (hst : s.workerStep = some (s', out)) :
    s'.Joined := by
  obtain ⟨hsome, hrunning, howner⟩ := workerStep_frame hst
  exact h.frame hrunning howner fun hnone => absurd hnone hsome

omit [DecidableEq I] in
theorem CSerialJobQueue.Joined.ownerStep (h : s.Joined) (hst : s.ownerStep = some (s', out)) :
    s'.Joined := by
  cases ho : s.owner with
  | idle =>
    simp only [CSerialJobQueue.ownerStep, ho] at hst
    cases hst
  | loadingStart =>
    simp only [CSerialJobQueue.ownerStep, ho] at hst
    cases hst
    by_cases hrunning : s.isRunning = true
    · rw [if_pos hrunning]
      exact ⟨h.none, by simp, by simp, by simp⟩
    · rw [if_neg hrunning]
      exact ⟨h.none, fun _ => Bool.eq_false_of_not_eq_true hrunning, by simp, by simp⟩
  | clearingStop =>
    simp only [CSerialJobQueue.ownerStep, ho] at hst
    cases hst
    exact ⟨h.none, fun _ => h.stopped (by rw [ho]; rfl), by simp, by simp⟩
  | settingRunning =>
    simp only [CSerialJobQueue.ownerStep, ho] at hst
    cases hst
    have hidle := h.stopped (by rw [ho]; rfl)
    exact ⟨by simp, by simp, fun _ => ⟨rfl, h.none hidle⟩, by simp⟩
  | launching =>
    simp only [CSerialJobQueue.ownerStep, ho] at hst
    cases hst
    obtain ⟨hrunning, -⟩ := h.launching ho
    refine ⟨?_, by simp, by simp, by simp⟩
    intro hidle
    simp [hrunning] at hidle
  | loadingStop flush =>
    simp only [CSerialJobQueue.ownerStep, ho] at hst
    cases hst
    by_cases hrunning : s.isRunning = true
    · rw [if_pos hrunning]
      exact ⟨h.none, by simp, by simp, by simp⟩
    · rw [if_neg hrunning]
      exact .afterStop h.none (Bool.eq_false_of_not_eq_true hrunning) flush
  | settingStop flush =>
    simp only [CSerialJobQueue.ownerStep, ho] at hst
    cases hst
    exact ⟨h.none, by simp, by simp, by simp⟩
  | notifying flush =>
    simp only [CSerialJobQueue.ownerStep, ho] at hst
    cases hst
    refine ⟨?_, by simp, by simp, by simp⟩
    intro hidle
    exact notify_none (h.none (by simpa using hidle))
  | joining flush =>
    simp only [CSerialJobQueue.ownerStep, ho] at hst
    split at hst
    · cases hst
      exact ⟨fun _ => rfl, by simp, by simp, fun _ _ => rfl⟩
    · cases hst
  | resetting flush =>
    simp only [CSerialJobQueue.ownerStep, ho] at hst
    cases hst
    have hnone := h.resetting flush ho
    exact CSerialJobQueue.Joined.afterStop (s := { s with isRunning := false }) (fun _ => hnone) rfl flush
  | lockingFlush =>
    simp only [CSerialJobQueue.ownerStep, ho] at hst
    split at hst
    · cases hst
    · cases hst
      exact ⟨h.none, fun _ => h.stopped (by rw [ho]; rfl), by simp, by simp⟩
  | clearing =>
    simp only [CSerialJobQueue.ownerStep, ho] at hst
    cases hst
    exact ⟨h.none, fun _ => h.stopped (by rw [ho]; rfl), by simp, by simp⟩
  | unlockingFlush =>
    simp only [CSerialJobQueue.ownerStep, ho] at hst
    cases hst
    exact ⟨h.none, by simp, by simp, by simp⟩

theorem ownerStep_books (hj : s.Joined) (h : s.ownerStep = some (s', out)) :
    s.books.Step out s'.books := by
  cases ho : s.owner with
  | idle =>
    simp only [CSerialJobQueue.ownerStep, ho] at h
    cases h
  | launching =>
    simp only [CSerialJobQueue.ownerStep, ho] at h
    cases h
    obtain ⟨-, hnone⟩ := hj.launching ho
    exact .worker s.isLocked _ (by rw [hnone]; rfl) (by rw [hnone]; rfl)
  | notifying flush =>
    simp only [CSerialJobQueue.ownerStep, ho] at h
    cases h
    exact .of_eq (notify_books s)
  | joining flush =>
    simp only [CSerialJobQueue.ownerStep, ho] at h
    split at h
    · rename_i hw
      cases h
      exact .worker s.isLocked _ (by rw [hw]; rfl) (by rw [hw]; rfl)
    · cases h
  | lockingFlush =>
    simp only [CSerialJobQueue.ownerStep, ho] at h
    split at h
    · cases h
    · cases h
      exact .quiet
  | clearing =>
    simp only [CSerialJobQueue.ownerStep, ho] at h
    cases h
    have hnone := hj.none (hj.stopped (by rw [ho]; rfl))
    exact SerialBooks.Step.flush (b := s.books) (by simp [CSerialJobQueue.books, hnone, SerialWorkerAt.inFlight])
  | loadingStart =>
    simp only [CSerialJobQueue.ownerStep, ho] at h
    cases h
    exact .quiet
  | clearingStop =>
    simp only [CSerialJobQueue.ownerStep, ho] at h
    cases h
    exact .quiet
  | settingRunning =>
    simp only [CSerialJobQueue.ownerStep, ho] at h
    cases h
    exact .quiet
  | loadingStop flush =>
    simp only [CSerialJobQueue.ownerStep, ho] at h
    cases h
    exact .quiet
  | settingStop flush =>
    simp only [CSerialJobQueue.ownerStep, ho] at h
    cases h
    exact .quiet
  | resetting flush =>
    simp only [CSerialJobQueue.ownerStep, ho] at h
    cases h
    exact .quiet
  | unlockingFlush =>
    simp only [CSerialJobQueue.ownerStep, ho] at h
    cases h
    exact .quiet

theorem clientStep_frame [DecidableEq T] {thread : T} (h : s.clientStep thread = some (s', out)) :
    s'.isRunning = s.isRunning ∧ s'.shouldStop = s.shouldStop ∧ s'.owner = s.owner ∧
      (s'.worker = s.worker ∨ s'.worker = s.notify.worker) := by
  unfold CSerialJobQueue.clientStep at h
  repeat' first | split at h | cases h
  all_goals first
    | exact ⟨rfl, rfl, rfl, .inl rfl⟩
    | exact ⟨notify_isRunning s, notify_shouldStop s, notify_owner s, .inr rfl⟩

omit [DecidableEq I] in
theorem begin_eq [DecidableEq T] {thread : T} {inCall : SerialClientAt I}
    (h : s.begin thread inCall = some (s', out)) :
    s.client thread = .out ∧ s' = s.at thread inCall ∧ out = .nothing := by
  unfold CSerialJobQueue.begin at h
  split at h
  · rename_i hout
    cases h
    exact ⟨hout, rfl, rfl⟩
  · cases h

omit [DecidableEq I] in
theorem ownerCalls_eq {inCall : SerialOwnerAt} (h : s.ownerCalls inCall = some (s', out)) :
    s.owner = .idle ∧ s' = { s with owner := inCall } ∧ out = .nothing := by
  unfold CSerialJobQueue.ownerCalls at h
  split at h
  · rename_i hidle
    cases h
    exact ⟨hidle, rfl, rfl⟩
  · cases h

/-- Where a call of Submit, Poll or Cancel begins. -/
def SerialClientAt.Begins (inCall : SerialClientAt I) : Prop :=
  (∃ jobId, inCall = .lockingSubmit jobId) ∨ inCall = .lockingPoll ∨ ∃ jobId, inCall = .lockingCancel jobId

/-- A step is one of the worker, of the owner or of a thread, or one of the latter two
that is in no call begins one. -/
theorem step_cases [DecidableEq T] {m : SerialMove I T} (h : s.step m = some (s', out)) :
    s.workerStep = some (s', out) ∨ m = .owner ∧ s.ownerStep = some (s', out) ∨
      (∃ thread, s.clientStep thread = some (s', out)) ∨
      out = .nothing ∧
        ((∃ thread inCall, s.client thread = .out ∧ inCall.Begins ∧ s' = s.at thread inCall) ∨
        s.owner = .idle ∧ (s' = { s with owner := .loadingStart } ∨
          ∃ flush, s' = { s with owner := .loadingStop flush })) := by
  cases m with
  | worker => exact .inl h
  | owner => exact .inr (.inl ⟨rfl, h⟩)
  | client thread => exact .inr (.inr (.inl ⟨thread, h⟩))
  | start =>
    obtain ⟨hidle, hs', hout⟩ := ownerCalls_eq h
    exact .inr (.inr (.inr ⟨hout, .inr ⟨hidle, .inl hs'⟩⟩))
  | stop =>
    obtain ⟨hidle, hs', hout⟩ := ownerCalls_eq h
    exact .inr (.inr (.inr ⟨hout, .inr ⟨hidle, .inr ⟨false, hs'⟩⟩⟩))
  | flush =>
    obtain ⟨hidle, hs', hout⟩ := ownerCalls_eq h
    exact .inr (.inr (.inr ⟨hout, .inr ⟨hidle, .inr ⟨true, hs'⟩⟩⟩))
  | submit thread jobId =>
    obtain ⟨hnone, hs', hout⟩ := begin_eq h
    exact .inr (.inr (.inr ⟨hout, .inl ⟨thread, _, hnone, .inl ⟨jobId, rfl⟩, hs'⟩⟩))
  | poll thread =>
    obtain ⟨hnone, hs', hout⟩ := begin_eq h
    exact .inr (.inr (.inr ⟨hout, .inl ⟨thread, _, hnone, .inr (.inl rfl), hs'⟩⟩))
  | cancel thread jobId =>
    obtain ⟨hnone, hs', hout⟩ := begin_eq h
    exact .inr (.inr (.inr ⟨hout, .inl ⟨thread, _, hnone, .inr (.inr ⟨jobId, rfl⟩), hs'⟩⟩))

theorem CSerialJobQueue.Joined.step [DecidableEq T] (h : s.Joined) {m : SerialMove I T}
    (hst : s.step m = some (s', out)) : s'.Joined := by
  rcases step_cases hst with hw | ⟨-, ho⟩ | ⟨thread, hc⟩ |
    ⟨-, ⟨thread, inCall, -, -, rfl⟩ | ⟨-, rfl | ⟨flush, rfl⟩⟩⟩
  · exact h.workerStep hw
  · exact h.ownerStep ho
  · obtain ⟨hrunning, -, howner, hworker⟩ := clientStep_frame hc
    refine h.frame hrunning howner fun hnone => ?_
    cases hworker with
    | inl hsame => exact hsame.trans hnone
    | inr hnotified => exact hnotified.trans (notify_none hnone)
  · exact h.frame rfl rfl id
  · exact ⟨h.none, by simp, by simp, by simp⟩
  · exact ⟨h.none, by simp, by simp, by simp⟩

/-- Every step of the queue is one of its books. -/
theorem step_books [DecidableEq T] (hj : s.Joined) {m : SerialMove I T}
    (h : s.step m = some (s', out)) : s.books.Step out s'.books := by
  rcases step_cases h with hw | ⟨-, ho⟩ | ⟨thread, hc⟩ |
    ⟨rfl, ⟨thread, inCall, -, -, rfl⟩ | ⟨-, rfl | ⟨flush, rfl⟩⟩⟩
  · exact workerStep_books hw
  · exact ownerStep_books hj ho
  · exact clientStep_books hc
  · exact .quiet
  · exact .quiet
  · exact .quiet

theorem CSerialJobQueue.Joined.run [DecidableEq T] {is : List (SerialMove I T)} {os : List (SerialSeen I)}
    (hr : (serialJobQueue I T).run {} is = some (s, os)) : s.Joined :=
  Machine.run_keeps CSerialJobQueue.Joined (fun _ _ _ _ hj hst => hj.step hst) .init hr

/-- What holds of the books and of what was seen so far, and is kept by every step of
the books, holds after every run of the queue. -/
theorem run_books [DecidableEq T] (Inv : List (SerialSeen I) → SerialBooks I → Prop)
    (hstep : ∀ os b out b', Inv os b → b.Step out b' → Inv (os ++ [out]) b') (got : List (SerialSeen I))
    {is : List (SerialMove I T)} {os : List (SerialSeen I)} (hj : s.Joined) (hs : Inv got s.books)
    (hr : (serialJobQueue I T).run s is = some (s', os)) : Inv (got ++ os) s'.books := by
  have hkept := Machine.run_invariant (M := serialJobQueue I T)
    (fun _ os s => s.Joined ∧ Inv os s.books) [] got
    (fun _ _ _ _ _ _ h hst => ⟨h.1.step hst, hstep _ _ _ _ h.2 (step_books h.1 hst)⟩) ⟨hj, hs⟩ hr
  exact hkept.2

end TgeCore.Threading
