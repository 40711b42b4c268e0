import TgeCore.Threading.SerialSubmits

namespace TgeCore.Threading
open Library

section Order
variable {I T : Type} [DecidableEq I]

def SerialSeen.submittedJob : SerialSeen I → Option Nat
  | .submitted entry => some entry.job
  | _ => none

def SerialSeen.ranJob : SerialSeen I → Option Nat
  | .ran job => some job
  | _ => none

def SerialSeen.returnedJob : SerialSeen I → Option Nat
  | .returned result => result
  | _ => none

/-- The jobs in the order of their submission, of their runs, and of Poll's returns. -/
def submittedJobs (os : List (SerialSeen I)) : List Nat := os.filterMap SerialSeen.submittedJob

def ranJobs (os : List (SerialSeen I)) : List Nat := os.filterMap SerialSeen.ranJob

def returnedJobs (os : List (SerialSeen I)) : List Nat := os.filterMap SerialSeen.returnedJob

omit [DecidableEq I] in
theorem filterMap_concat (f : SerialSeen I → Option Nat) (os : List (SerialSeen I)) (out : SerialSeen I) :
    (os ++ [out]).filterMap f = os.filterMap f ++ (f out).toList := by
  cases h : f out with
  | none => simp [h]
  | some job => simp [h]

omit [DecidableEq I] in
theorem submittedJobs_concat (os : List (SerialSeen I)) (out : SerialSeen I) :
    submittedJobs (os ++ [out]) = submittedJobs os ++ out.submittedJob.toList := filterMap_concat _ os out

omit [DecidableEq I] in
theorem ranJobs_concat (os : List (SerialSeen I)) (out : SerialSeen I) :
    ranJobs (os ++ [out]) = ranJobs os ++ out.ranJob.toList := filterMap_concat _ os out

omit [DecidableEq I] in
theorem returnedJobs_concat (os : List (SerialSeen I)) (out : SerialSeen I) :
    returnedJobs (os ++ [out]) = returnedJobs os ++ out.returnedJob.toList := filterMap_concat _ os out

/-- The jobs lie in the queue in the order of their submission: returned, completed, with
the worker, pending. -/
structure SerialBooks.InOrder (os : List (SerialSeen I)) (b : SerialBooks I) : Prop where
  unmarked : b.cancelled = ∅
  named : submittedJobs os = List.range b.nextJob
  line : submittedJobs os = returnedJobs os ++ b.completed ++ b.inFlight.map SEntry.job ++ b.pending.map SEntry.job
  ran : ranJobs os = returnedJobs os ++ b.completed ++ b.finished

section Books
variable {b b' : SerialBooks I} {os : List (SerialSeen I)} {out : SerialSeen I}

/-- No step but a Cancel or a Flush takes a job out of its place in the line. -/
theorem SerialBooks.InOrder.step (h : b.InOrder os) (hst : b.Step out b') (hflushed : out ≠ .flushed)
    (hcancelled : ∀ jobId, out ≠ .cancelled jobId) : b'.InOrder (os ++ [out]) := by
  obtain ⟨hunmarked, hnamed, hline, hran⟩ := h
  have hsubmitted := submittedJobs_concat os out
  have hranNow := ranJobs_concat os out
  have hreturned := returnedJobs_concat os out
  cases hst with
  | quiet =>
    simp only [SerialSeen.submittedJob, SerialSeen.ranJob, SerialSeen.returnedJob, Option.toList_none,
      List.append_nil] at hsubmitted hranNow hreturned
    exact ⟨hunmarked, by rw [hsubmitted, hnamed], by rw [hsubmitted, hreturned, hline], by rw [hranNow, hreturned, hran]⟩
  | submit jobId =>
    simp only [SerialSeen.submittedJob, SerialSeen.ranJob, SerialSeen.returnedJob, Option.toList_none,
      Option.toList_some, List.append_nil] at hsubmitted hranNow hreturned
    refine ⟨hunmarked, ?_, ?_, by rw [hranNow, hreturned, hran]⟩
    · rw [hsubmitted, hnamed, List.range_succ]
    · rw [hsubmitted, hreturned, hline, List.map_append]
      simp
  | discard _ hmarked =>
    rw [hunmarked] at hmarked
    exact absurd hmarked (Finset.notMem_empty _)
  | take hpending _ hnone =>
    simp only [SerialSeen.submittedJob, SerialSeen.ranJob, SerialSeen.returnedJob, Option.toList_none,
      List.append_nil] at hsubmitted hranNow hreturned
    refine ⟨hunmarked, by rw [hsubmitted, hnamed], ?_, by rw [hranNow, hreturned, hran]⟩
    rw [hsubmitted, hreturned, hline, hpending, hnone]
    simp
  | run entry hflight hnone =>
    simp only [SerialSeen.submittedJob, SerialSeen.ranJob, SerialSeen.returnedJob, Option.toList_none,
      Option.toList_some, List.append_nil] at hsubmitted hranNow hreturned
    refine ⟨hunmarked, by rw [hsubmitted, hnamed], by rw [hsubmitted, hreturned, hline], ?_⟩
    rw [hranNow, hreturned, hran, hnone, List.append_nil]
  | push entry hflight hfinished =>
    simp only [SerialSeen.submittedJob, SerialSeen.ranJob, SerialSeen.returnedJob, Option.toList_none,
      List.append_nil] at hsubmitted hranNow hreturned
    refine ⟨hunmarked, by rw [hsubmitted, hnamed], ?_, ?_⟩
    · rw [hsubmitted, hreturned, hline, hflight]
      simp
    · rw [hranNow, hreturned, hran, hfinished]
      simp
  | poll =>
    simp only [SerialSeen.submittedJob, SerialSeen.ranJob, SerialSeen.returnedJob, Option.toList_none,
      List.append_nil] at hsubmitted hranNow hreturned
    have hfront : returnedJobs os ++ b.completed.head?.toList ++ b.completed.tail = returnedJobs os ++ b.completed := by
      cases b.completed with
      | nil => simp
      | cons job rest => simp
    refine ⟨hunmarked, by rw [hsubmitted, hnamed], ?_, ?_⟩
    · rw [hsubmitted, hreturned, hline, hfront]
    · rw [hranNow, hreturned, hran, hfront]
  | remove _ => exact absurd rfl (hcancelled _)
  | mark _ => exact absurd rfl (hcancelled _)
  | flush _ => exact absurd rfl hflushed

end Books

/-- The owner is in Flush. -/
def SerialOwnerAt.flushes : SerialOwnerAt → Bool
  | .loadingStop flush => flush
  | .settingStop flush => flush
  | .notifying flush => flush
  | .joining flush => flush
  | .resetting flush => flush
  | .lockingFlush => true
  | .clearing => true
  | .unlockingFlush => true
  | _ => false

def SerialClientAt.cancels : SerialClientAt I → Bool
  | .lockingCancel _ => true
  | .cancelling _ => true
  | _ => false

/-- Nobody is in Cancel or Flush. -/
structure CSerialJobQueue.Calm (s : CSerialJobQueue I T) : Prop where
  owner : s.owner.flushes = false
  client : ∀ thread, (s.client thread).cancels = false

/-- A step that calls neither. -/
def SerialMove.Plain : SerialMove I T → Prop
  | .flush => False
  | .cancel _ _ => False
  | _ => True

section Calm
variable {s s' : CSerialJobQueue I T} {out : SerialSeen I} {m : SerialMove I T}

theorem workerStep_calm (h : s.workerStep = some (s', out)) :
    s'.owner = s.owner ∧ s'.client = s.client ∧ out ≠ .flushed ∧ ∀ jobId, out ≠ .cancelled jobId := by
  unfold CSerialJobQueue.workerStep at h
  repeat' first | split at h | cases h
  all_goals exact ⟨rfl, rfl, by simp, by simp⟩

omit [DecidableEq I] in
theorem ownerStep_calm (hcalm : s.owner.flushes = false) (h : s.ownerStep = some (s', out)) :
    s'.owner.flushes = false ∧ s'.client = s.client ∧ out = .nothing := by
  cases ho : s.owner with
  | idle =>
    simp only [CSerialJobQueue.ownerStep, ho] at h
    cases h
  | loadingStart =>
    simp only [CSerialJobQueue.ownerStep, ho] at h
    cases h
    refine ⟨?_, rfl, rfl⟩
    split
    · rfl
    · rfl
  | clearingStop =>
    simp only [CSerialJobQueue.ownerStep, ho] at h
    cases h
    exact ⟨rfl, rfl, rfl⟩
  | settingRunning =>
    simp only [CSerialJobQueue.ownerStep, ho] at h
    cases h
    exact ⟨rfl, rfl, rfl⟩
  | launching =>
    simp only [CSerialJobQueue.ownerStep, ho] at h
    cases h
    exact ⟨rfl, rfl, rfl⟩
  | loadingStop flush =>
    obtain rfl : flush = false := by simpa [ho, SerialOwnerAt.flushes] using hcalm
    simp only [CSerialJobQueue.ownerStep, ho] at h
    cases h
    refine ⟨?_, rfl, rfl⟩
    split
    · rfl
    · rfl
  | settingStop flush =>
    simp only [CSerialJobQueue.ownerStep, ho] at h
    cases h
    exact ⟨by rwa [ho] at hcalm, rfl, rfl⟩
  | notifying flush =>
    simp only [CSerialJobQueue.ownerStep, ho] at h
    cases h
    exact ⟨by rwa [ho] at hcalm, notify_client s, rfl⟩
  | joining flush =>
    simp only [CSerialJobQueue.ownerStep, ho] at h
    split at h
    · cases h
      exact ⟨by rwa [ho] at hcalm, rfl, rfl⟩
    · cases h
  | resetting flush =>
    obtain rfl : flush = false := by simpa [ho, SerialOwnerAt.flushes] using hcalm
    simp only [CSerialJobQueue.ownerStep, ho] at h
    cases h
    exact ⟨rfl, rfl, rfl⟩
  | lockingFlush => simp [ho, SerialOwnerAt.flushes] at hcalm
  | clearing => simp [ho, SerialOwnerAt.flushes] at hcalm
  | unlockingFlush => simp [ho, SerialOwnerAt.flushes] at hcalm

variable [DecidableEq T] {thread : T}

omit [DecidableEq I] in
/-- A thread that is not in Cancel takes the place of another. -/
theorem update_calm {client : T → SerialClientAt I} {inCall : SerialClientAt I}
    (hcalm : ∀ t, (client t).cancels = false) (hin : inCall.cancels = false) (t : T) :
    (Function.update client thread inCall t).cancels = false := by
  by_cases ht : t = thread
  · rw [ht, Function.update_self]
    exact hin
  · rw [Function.update_of_ne ht]
    exact hcalm t

theorem clientStep_calm (hcalm : ∀ t, (s.client t).cancels = false) (h : s.clientStep thread = some (s', out)) :
    s'.owner = s.owner ∧ (∀ t, (s'.client t).cancels = false) ∧ out ≠ .flushed ∧
      ∀ jobId, out ≠ .cancelled jobId := by
  cases hc : s.client thread with
  | out =>
    simp only [CSerialJobQueue.clientStep, hc] at h
    cases h
  | lockingSubmit jobId =>
    simp only [CSerialJobQueue.clientStep, hc] at h
    split at h
    · cases h
    · cases h
      exact ⟨rfl, update_calm hcalm rfl, by simp, by simp⟩
  | pushing jobId =>
    simp only [CSerialJobQueue.clientStep, hc] at h
    cases h
    exact ⟨rfl, update_calm hcalm rfl, by simp, by simp⟩
  | unlockingSubmit =>
    simp only [CSerialJobQueue.clientStep, hc] at h
    cases h
    exact ⟨rfl, update_calm hcalm rfl, by simp, by simp⟩
  | notifying =>
    simp only [CSerialJobQueue.clientStep, hc] at h
    cases h
    refine ⟨notify_owner s, update_calm ?_ rfl, by simp, by simp⟩
    rw [notify_client]
    exact hcalm
  | lockingPoll =>
    simp only [CSerialJobQueue.clientStep, hc] at h
    split at h
    · cases h
    · cases h
      exact ⟨rfl, update_calm hcalm rfl, by simp, by simp⟩
  | polling =>
    simp only [CSerialJobQueue.clientStep, hc] at h
    cases h
    exact ⟨rfl, update_calm hcalm rfl, by simp, by simp⟩
  | lockingCancel jobId =>
    have := hcalm thread
    simp [hc, SerialClientAt.cancels] at this
  | cancelling jobId =>
    have := hcalm thread
    simp [hc, SerialClientAt.cancels] at this
  | unlocking =>
    simp only [CSerialJobQueue.clientStep, hc] at h
    cases h
    exact ⟨rfl, update_calm hcalm rfl, by simp, by simp⟩

theorem CSerialJobQueue.Calm.step (h : s.Calm) (hplain : m.Plain) (hst : s.step m = some (s', out)) :
    s'.Calm ∧ out ≠ .flushed ∧ ∀ jobId, out ≠ .cancelled jobId := by
  cases m with
  | start =>
    obtain ⟨_, rfl, rfl⟩ := ownerCalls_eq hst
    exact ⟨⟨rfl, h.client⟩, by simp, by simp⟩
  | stop =>
    obtain ⟨_, rfl, rfl⟩ := ownerCalls_eq hst
    exact ⟨⟨rfl, h.client⟩, by simp, by simp⟩
  | flush => exact hplain.elim
  | submit thread jobId =>
    obtain ⟨_, rfl, rfl⟩ := begin_eq hst
    exact ⟨⟨h.owner, update_calm h.client rfl⟩, by simp, by simp⟩
  | poll thread =>
    obtain ⟨_, rfl, rfl⟩ := begin_eq hst
    exact ⟨⟨h.owner, update_calm h.client rfl⟩, by simp, by simp⟩
  | cancel thread jobId => exact hplain.elim
  | owner =>
    obtain ⟨howner, hclient, rfl⟩ := ownerStep_calm h.owner hst
    exact ⟨⟨howner, hclient ▸ h.client⟩, by simp, by simp⟩
  | worker =>
    obtain ⟨howner, hclient, hseen⟩ := workerStep_calm hst
    exact ⟨⟨howner ▸ h.owner, hclient ▸ h.client⟩, hseen⟩
  | client thread =>
    obtain ⟨howner, hclient, hseen⟩ := clientStep_calm h.client hst
    exact ⟨⟨howner ▸ h.owner, hclient⟩, hseen⟩

end Calm

section Results
variable [DecidableEq T] {s t : CSerialJobQueue I T} {is : List (SerialMove I T)} {os : List (SerialSeen I)}

end Results

end Order

end TgeCore.Threading
