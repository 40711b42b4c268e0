import TgeCore.Threading.SerialBooks

namespace TgeCore.Threading
open Library

/-- Those that lock the queue's mutex. -/
inductive SerialParty (T : Type) where
  | owner
  | worker
  | client (thread : T)
deriving DecidableEq

section Statement
variable {I T : Type}

@[simp] def SerialWorkerAt.holds : SerialWorkerAt I → Bool
  | .evaluating => true
  | .willBlock => true
  | .leaving => true
  | .popped _ _ => true
  | .pushing _ => true
  | .unlocking => true
  | .exiting => true
  | _ => false

@[simp] def SerialOwnerAt.holds : SerialOwnerAt → Bool
  | .clearing => true
  | .unlockingFlush => true
  | _ => false

@[simp] def SerialClientAt.holds : SerialClientAt I → Bool
  | .pushing _ => true
  | .unlockingSubmit => true
  | .polling => true
  | .cancelling _ => true
  | .unlocking => true
  | _ => false

/-- A party is between its lock of the mutex and its unlock. -/
def CSerialJobQueue.holds (s : CSerialJobQueue I T) : SerialParty T → Bool
  | .owner => s.owner.holds
  | .worker => s.worker.holds
  | .client thread => (s.client thread).holds

/-- The mutex is locked while a party holds it, and one at most does. -/
def CSerialJobQueue.Exclusive (s : CSerialJobQueue I T) : Prop :=
  ∃ holder : Option (SerialParty T), s.isLocked = holder.isSome ∧ ∀ p, s.holds p = true ↔ holder = some p

end Statement

variable {I T : Type} {s s' : CSerialJobQueue I T} {out : SerialSeen I}

theorem CSerialJobQueue.Exclusive.init : ({} : CSerialJobQueue I T).Exclusive := by
  refine ⟨none, rfl, fun p => ?_⟩
  cases p with
  | owner => simp [CSerialJobQueue.holds]
  | worker => simp [CSerialJobQueue.holds]
  | client thread => simp [CSerialJobQueue.holds]

/-- Where the mutex is free nobody holds it. -/
theorem CSerialJobQueue.Exclusive.nobody (h : s.Exclusive) (hfree : s.isLocked = false)
    (p : SerialParty T) : s.holds p = false := by
  obtain ⟨holder, hsome, hholds⟩ := h
  have hnone : holder = none := by simpa [hfree] using hsome
  rw [Bool.eq_false_iff, ne_eq, hholds p, hnone]
  simp

/-- A party goes on, locks the mutex or unlocks it, and the others stay where they are. -/
theorem CSerialJobQueue.Exclusive.moves (h : s.Exclusive) (p : SerialParty T)
    (hothers : ∀ q, q ≠ p → s'.holds q = s.holds q)
    (hturn : s'.isLocked = s.isLocked ∧ s'.holds p = s.holds p ∨
      s.isLocked = false ∧ s'.isLocked = true ∧ s'.holds p = true ∨
      s.holds p = true ∧ s'.isLocked = false ∧ s'.holds p = false) : s'.Exclusive := by
  obtain ⟨holder, hsome, hholds⟩ := h
  rcases hturn with ⟨hlocked, hsame⟩ | ⟨hfree, hlocked, hheld⟩ | ⟨hbefore, hfree, hleft⟩
  · refine ⟨holder, hlocked.trans hsome, fun q => ?_⟩
    by_cases hq : q = p
    · rw [hq, hsame]
      exact hholds p
    · rw [hothers q hq]
      exact hholds q
  · have hnone : holder = none := by simpa [hfree] using hsome
    refine ⟨some p, hlocked, fun q => ?_⟩
    by_cases hq : q = p
    · simp [hq, hheld]
    · rw [hothers q hq, hholds q, hnone]
      simp [Ne.symm hq]
  · refine ⟨none, hfree, fun q => ?_⟩
    by_cases hq : q = p
    · simp [hq, hleft]
    · have hholder := (hholds p).mp hbefore
      rw [hothers q hq, hholds q, hholder]
      simp [Ne.symm hq]

theorem CSerialJobQueue.Exclusive.keeps (h : s.Exclusive) (hlocked : s'.isLocked = s.isLocked)
    (hall : ∀ q, s'.holds q = s.holds q) : s'.Exclusive := by
  obtain ⟨holder, hsome, hholds⟩ := h
  refine ⟨holder, hlocked.trans hsome, fun q => ?_⟩
  rw [hall q]
  exact hholds q

section Steps
variable [DecidableEq I]

theorem CSerialJobQueue.Exclusive.workerStep (h : s.Exclusive) (hst : s.workerStep = some (s', out)) :
    s'.Exclusive := by
  have hothers : ∀ q, q ≠ .worker → s'.holds q = s.holds q := by
    intro q hq
    unfold CSerialJobQueue.workerStep at hst
    cases q with
    | worker => exact absurd rfl hq
    | owner =>
      repeat' first | split at hst | cases hst
      all_goals rfl
    | client thread =>
      repeat' first | split at hst | cases hst
      all_goals rfl
  apply h.moves .worker hothers
  cases hw : s.worker with
  | locking =>
    simp only [CSerialJobQueue.workerStep, hw] at hst
    split at hst
    · cases hst
    · rename_i hfree
      cases hst
      simp [CSerialJobQueue.holds, hfree]
  | completing entry =>
    simp only [CSerialJobQueue.workerStep, hw] at hst
    split at hst
    · cases hst
    · rename_i hfree
      cases hst
      simp [CSerialJobQueue.holds, hfree]
  | _ =>
    simp only [CSerialJobQueue.workerStep, hw] at hst
    repeat' first | split at hst | cases hst
    all_goals simp [CSerialJobQueue.holds, hw]

omit [DecidableEq I] in
/-- A notify wakes a worker that does not hold the mutex, and it still does not. -/
theorem notify_holds (s : CSerialJobQueue I T) : s.notify.worker.holds = s.worker.holds := by
  obtain ⟨hblocked, hwoken⟩ | ⟨-, hsame⟩ := notify_worker s
  · rw [hblocked, hwoken]
    rfl
  · rw [hsame]

omit [DecidableEq I] in
theorem CSerialJobQueue.Exclusive.ownerStep (h : s.Exclusive) (hj : s.Joined)
    (hst : s.ownerStep = some (s', out)) : s'.Exclusive := by
  have hworker : s'.worker.holds = s.worker.holds ∧ s'.client = s.client := by
    cases ho : s.owner with
    | launching =>
      simp only [CSerialJobQueue.ownerStep, ho] at hst
      cases hst
      obtain ⟨-, hnone⟩ := hj.launching ho
      simp [hnone]
    | notifying flush =>
      simp only [CSerialJobQueue.ownerStep, ho] at hst
      cases hst
      exact ⟨notify_holds s, notify_client s⟩
    | joining flush =>
      simp only [CSerialJobQueue.ownerStep, ho] at hst
      split at hst
      · rename_i hw
        cases hst
        simp [hw]
      · cases hst
    | _ =>
      simp only [CSerialJobQueue.ownerStep, ho] at hst
      repeat' first | split at hst | cases hst
      all_goals exact ⟨rfl, rfl⟩
  have hothers : ∀ q, q ≠ .owner → s'.holds q = s.holds q := by
    intro q hq
    cases q with
    | owner => exact absurd rfl hq
    | worker => exact hworker.1
    | client thread => exact congrArg (fun c => (c thread).holds) hworker.2
  apply h.moves .owner hothers
  cases ho : s.owner with
  | lockingFlush =>
    simp only [CSerialJobQueue.ownerStep, ho] at hst
    split at hst
    · cases hst
    · rename_i hfree
      cases hst
      simp [CSerialJobQueue.holds, hfree]
  | notifying flush =>
    simp only [CSerialJobQueue.ownerStep, ho] at hst
    cases hst
    simp [CSerialJobQueue.holds, ho]
  | loadingStop flush =>
    simp only [CSerialJobQueue.ownerStep, ho] at hst
    cases hst
    cases hrunning : s.isRunning with
    | true => simp [CSerialJobQueue.holds, ho]
    | false => cases flush with
      | true => simp [CSerialJobQueue.holds, ho]
      | false => simp [CSerialJobQueue.holds, ho]
  | resetting flush =>
    simp only [CSerialJobQueue.ownerStep, ho] at hst
    cases hst
    cases flush with
    | true => simp [CSerialJobQueue.holds, ho]
    | false => simp [CSerialJobQueue.holds, ho]
  | loadingStart =>
    simp only [CSerialJobQueue.ownerStep, ho] at hst
    cases hst
    cases hrunning : s.isRunning with
    | true => simp [CSerialJobQueue.holds, ho]
    | false => simp [CSerialJobQueue.holds, ho]
  | _ =>
    simp only [CSerialJobQueue.ownerStep, ho] at hst
    repeat' first | split at hst | cases hst
    all_goals simp [CSerialJobQueue.holds, ho]

theorem CSerialJobQueue.Exclusive.clientStep [DecidableEq T] (h : s.Exclusive) {thread : T}
    (hst : s.clientStep thread = some (s', out)) : s'.Exclusive := by
  obtain ⟨-, -, howner, hworker⟩ := clientStep_frame hst
  have hclient : ∀ t, t ≠ thread → s'.client t = s.client t := by
    intro t ht
    unfold CSerialJobQueue.clientStep at hst
    repeat' first | split at hst | cases hst
    all_goals simp [CSerialJobQueue.at, ht]
  have hothers : ∀ q, q ≠ .client thread → s'.holds q = s.holds q := by
    intro q hq
    cases q with
    | owner => exact congrArg SerialOwnerAt.holds howner
    | worker =>
      cases hworker with
      | inl hsame => exact congrArg SerialWorkerAt.holds hsame
      | inr hnotified => exact (congrArg SerialWorkerAt.holds hnotified).trans (notify_holds s)
    | client t =>
      have ht : t ≠ thread := fun hsame => hq (by rw [hsame])
      exact congrArg SerialClientAt.holds (hclient t ht)
  apply h.moves (.client thread) hothers
  cases hc : s.client thread with
  | lockingSubmit jobId =>
    simp only [CSerialJobQueue.clientStep, hc] at hst
    split at hst
    · cases hst
    · rename_i hfree
      cases hst
      simp [CSerialJobQueue.holds, CSerialJobQueue.at, hfree]
  | lockingPoll =>
    simp only [CSerialJobQueue.clientStep, hc] at hst
    split at hst
    · cases hst
    · rename_i hfree
      cases hst
      simp [CSerialJobQueue.holds, CSerialJobQueue.at, hfree]
  | lockingCancel jobId =>
    simp only [CSerialJobQueue.clientStep, hc] at hst
    split at hst
    · cases hst
    · rename_i hfree
      cases hst
      simp [CSerialJobQueue.holds, CSerialJobQueue.at, hfree]
  | _ =>
    simp only [CSerialJobQueue.clientStep, hc] at hst
    repeat' first | split at hst | cases hst
    all_goals simp [CSerialJobQueue.holds, CSerialJobQueue.at, hc]

end Steps

section Runs
variable [DecidableEq I] [DecidableEq T] {os : List (SerialSeen I)}

theorem CSerialJobQueue.Exclusive.step (h : s.Exclusive) (hj : s.Joined) {m : SerialMove I T}
    (hst : s.step m = some (s', out)) : s'.Exclusive := by
  rcases step_cases hst with hw | ⟨-, ho⟩ | ⟨thread, hc⟩ |
    ⟨-, ⟨thread, inCall, hout, hbegins, rfl⟩ | ⟨hidle, rfl | ⟨flush, rfl⟩⟩⟩
  · exact h.workerStep hw
  · exact h.ownerStep hj ho
  · exact h.clientStep hc
  · have hfree : inCall.holds = false := by
      rcases hbegins with ⟨jobId, rfl⟩ | rfl | ⟨jobId, rfl⟩
      · rfl
      · rfl
      · rfl
    refine h.keeps rfl fun q => ?_
    cases q with
    | owner => rfl
    | worker => rfl
    | client t =>
      by_cases ht : t = thread
      · subst ht
        change (Function.update s.client t inCall t).holds = (s.client t).holds
        rw [Function.update_self, hfree, hout]
        rfl
      · simp [CSerialJobQueue.holds, CSerialJobQueue.at, ht]
  · refine h.keeps rfl fun q => ?_
    cases q with
    | owner => simp [CSerialJobQueue.holds, hidle]
    | worker => rfl
    | client t => rfl
  · refine h.keeps rfl fun q => ?_
    cases q with
    | owner => simp [CSerialJobQueue.holds, hidle]
    | worker => rfl
    | client t => rfl

theorem exclusive_run {is : List (SerialMove I T)} (hr : (serialJobQueue I T).run {} is = some (s, os)) :
    s.Exclusive := by
  have hkept := Machine.run_keeps (fun s : CSerialJobQueue I T => s.Joined ∧ s.Exclusive)
    (fun _ _ _ _ h hst => ⟨h.1.step hst, h.2.step h.1 hst⟩) ⟨.init, .init⟩ hr
  exact hkept.2

end Runs

end TgeCore.Threading
