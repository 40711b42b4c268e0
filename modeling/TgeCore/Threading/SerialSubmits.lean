import TgeCore.Library.Calls
import TgeCore.Threading.SerialBooks

namespace TgeCore.Threading
open Library

section Statement
variable {I T : Type} [DecidableEq T]

/-- The id of a call of Submit that the thread makes. -/
def submitBy (thread : T) : SerialMove I T → List I
  | .submit t jobId => if t = thread then [jobId] else []
  | _ => []

/-- The id of the entry that the thread's own step submits. -/
def submittedBy (thread : T) : SerialMove I T → SerialSeen I → List I
  | .client t, .submitted entry => if t = thread then [entry.jobId] else []
  | _, _ => []

/-- The id of a Submit that has not pushed its entry. -/
def SerialClientAt.submitting : SerialClientAt I → List I
  | .lockingSubmit jobId => [jobId]
  | .pushing jobId => [jobId]
  | _ => []

/-- Each call of Submit submits its entry, in the order of its thread's calls, but for the one
that is still to push it. Nothing else is submitted. -/
structure CSerialJobQueue.Submits (s : CSerialJobQueue I T) (ms : List (SerialMove I T))
    (os : List (SerialSeen I)) : Prop where
  own : ∀ thread, ms.flatMap (submitBy thread) =
    (List.zipWith (submittedBy thread) ms os).flatten ++ (s.client thread).submitting
  called : ∀ p ∈ ms.zip os, ∀ entry, p.2 = .submitted entry → ∃ thread, p.1 = .client thread

end Statement

variable {I T : Type} {s s' : CSerialJobQueue I T} {out : SerialSeen I} {m : SerialMove I T} {thread : T}

section Frame
variable [DecidableEq I]

theorem workerStep_client (h : s.workerStep = some (s', out)) :
    s'.client = s.client ∧ ∀ entry, out ≠ .submitted entry := by
  unfold CSerialJobQueue.workerStep at h
  repeat' first | split at h | cases h
  all_goals exact ⟨rfl, by simp⟩

omit [DecidableEq I] in
theorem ownerStep_client (h : s.ownerStep = some (s', out)) :
    s'.client = s.client ∧ ∀ entry, out ≠ .submitted entry := by
  cases ho : s.owner with
  | notifying flush =>
    simp only [CSerialJobQueue.ownerStep, ho] at h
    cases h
    exact ⟨notify_client s, by simp⟩
  | joining flush =>
    simp only [CSerialJobQueue.ownerStep, ho] at h
    split at h
    · cases h
      exact ⟨rfl, by simp⟩
    · cases h
  | lockingFlush =>
    simp only [CSerialJobQueue.ownerStep, ho] at h
    split at h
    · cases h
    · cases h
      exact ⟨rfl, by simp⟩
  | idle => simp [CSerialJobQueue.ownerStep, ho] at h
  | _ =>
    simp only [CSerialJobQueue.ownerStep, ho] at h
    cases h
    exact ⟨rfl, by simp⟩

end Frame

section Calls
variable [DecidableEq T]

/-- A step that moves one thread, and submits nothing but that thread's entry. -/
theorem submitting_at {other : T} {inCall : SerialClientAt I}
    (hclient : s'.client = Function.update s.client other inCall)
    (hown : (s.client other).submitting ++ submitBy other m = submittedBy other m out ++ inCall.submitting)
    (hby : thread ≠ other → submitBy thread m = []) (hout : thread ≠ other → submittedBy thread m out = []) :
    (s.client thread).submitting ++ submitBy thread m =
      submittedBy thread m out ++ (s'.client thread).submitting := by
  rw [hclient]
  by_cases ht : thread = other
  · subst ht
    rw [Function.update_self]
    exact hown
  · rw [Function.update_of_ne ht, hby ht, hout ht, List.append_nil, List.nil_append]

variable [DecidableEq I]

theorem clientStep_submitting {other : T} (h : s.clientStep other = some (s', out)) :
    (s.client thread).submitting ++ submitBy thread (.client other : SerialMove I T) =
      submittedBy thread (.client other) out ++ (s'.client thread).submitting := by
  cases hc : s.client other with
  | out => simp [CSerialJobQueue.clientStep, hc] at h
  | pushing jobId =>
    simp only [CSerialJobQueue.clientStep, hc] at h
    cases h
    refine submitting_at rfl ?_ (fun _ => rfl) fun ht => if_neg ht.symm
    rw [hc]
    simp [SerialClientAt.submitting, submitBy, submittedBy]
  | notifying =>
    simp only [CSerialJobQueue.clientStep, hc] at h
    cases h
    have hclient : (s.notify.at other .out).client = Function.update s.client other .out := by
      rw [CSerialJobQueue.at, notify_client]
    exact submitting_at hclient (by rw [hc]; rfl) (fun _ => rfl) fun _ => rfl
  | cancelling jobId =>
    simp only [CSerialJobQueue.clientStep, hc] at h
    split at h
    all_goals
      cases h
      exact submitting_at rfl (by rw [hc]; rfl) (fun _ => rfl) fun _ => rfl
  | lockingSubmit jobId =>
    simp only [CSerialJobQueue.clientStep, hc] at h
    split at h
    · cases h
    · cases h
      exact submitting_at rfl (by rw [hc]; rfl) (fun _ => rfl) fun _ => rfl
  | lockingPoll =>
    simp only [CSerialJobQueue.clientStep, hc] at h
    split at h
    · cases h
    · cases h
      exact submitting_at rfl (by rw [hc]; rfl) (fun _ => rfl) fun _ => rfl
  | lockingCancel jobId =>
    simp only [CSerialJobQueue.clientStep, hc] at h
    split at h
    · cases h
    · cases h
      exact submitting_at rfl (by rw [hc]; rfl) (fun _ => rfl) fun _ => rfl
  | _ =>
    simp only [CSerialJobQueue.clientStep, hc] at h
    cases h
    exact submitting_at rfl (by rw [hc]; rfl) (fun _ => rfl) fun _ => rfl

theorem step_submitting (hst : s.step m = some (s', out)) (thread : T) :
    (s.client thread).submitting ++ submitBy thread m =
      submittedBy thread m out ++ (s'.client thread).submitting := by
  cases m with
  | submit other jobId =>
    obtain ⟨hout, rfl, rfl⟩ := begin_eq hst
    refine submitting_at rfl ?_ (fun ht => if_neg ht.symm) fun _ => rfl
    rw [hout]
    simp [SerialClientAt.submitting, submitBy, submittedBy]
  | poll other =>
    obtain ⟨hout, rfl, rfl⟩ := begin_eq hst
    exact submitting_at rfl (by rw [hout]; rfl) (fun _ => rfl) fun _ => rfl
  | cancel other jobId =>
    obtain ⟨hout, rfl, rfl⟩ := begin_eq hst
    exact submitting_at rfl (by rw [hout]; rfl) (fun _ => rfl) fun _ => rfl
  | start =>
    obtain ⟨-, rfl, rfl⟩ := ownerCalls_eq hst
    exact List.append_nil _
  | stop =>
    obtain ⟨-, rfl, rfl⟩ := ownerCalls_eq hst
    exact List.append_nil _
  | flush =>
    obtain ⟨-, rfl, rfl⟩ := ownerCalls_eq hst
    exact List.append_nil _
  | owner =>
    rw [(ownerStep_client hst).1]
    exact List.append_nil _
  | worker =>
    rw [(workerStep_client hst).1]
    exact List.append_nil _
  | client other => exact clientStep_submitting hst

/-- Only a step of a thread in Submit submits an entry. -/
theorem step_submitted {entry : SEntry I} (hst : s.step m = some (s', .submitted entry)) :
    ∃ thread, m = .client thread := by
  cases m with
  | client thread => exact ⟨thread, rfl⟩
  | owner => exact absurd rfl ((ownerStep_client hst).2 entry)
  | worker => exact absurd rfl ((workerStep_client hst).2 entry)
  | submit other jobId => cases (begin_eq hst).2.2
  | poll other => cases (begin_eq hst).2.2
  | cancel other jobId => cases (begin_eq hst).2.2
  | start => cases (ownerCalls_eq hst).2.2
  | stop => cases (ownerCalls_eq hst).2.2
  | flush => cases (ownerCalls_eq hst).2.2

theorem run_submitted {is : List (SerialMove I T)} {os : List (SerialSeen I)}
    (hr : (serialJobQueue I T).run s is = some (s', os)) :
    ∀ p ∈ is.zip os, ∀ entry, p.2 = .submitted entry → ∃ thread, p.1 = .client thread := by
  induction is generalizing s os with
  | nil => simp
  | cons m is ih =>
    obtain ⟨t, out, os', hst, hrest, rfl⟩ := Machine.run_cons_eq_some.mp hr
    intro p hp entry hentry
    rcases List.mem_cons.mp hp with rfl | hlater
    · obtain rfl : out = .submitted entry := hentry
      exact step_submitted hst
    · exact ih hrest p hlater entry hentry

theorem run_submits {is : List (SerialMove I T)} {os : List (SerialSeen I)}
    (hr : (serialJobQueue I T).run {} is = some (s, os)) : s.Submits is os :=
  ⟨fun thread => Machine.run_owes_zip (fun s => (s.client thread).submitting)
    (fun _ _ _ _ hst => step_submitting hst thread) hr, run_submitted hr⟩

end Calls

end TgeCore.Threading
