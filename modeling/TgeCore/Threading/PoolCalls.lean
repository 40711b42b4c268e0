import TgeCore.Library.Calls
import TgeCore.Threading.PoolBooks

namespace TgeCore.Threading
open Library

namespace CThreadPool
variable {W : Type}

/-- What the calls of Execute that have work ask for, in any measure. -/
def Move.asks (f : W → EJobPriority → Nat) : Move W → Nat
  | .execute (some w) priority => f w priority
  | _ => 0

def Seen.queues (f : W → EJobPriority → Nat) : Seen W → Nat
  | .queued item => f item.work item.priority
  | _ => 0

/-- A call that has not queued its work. -/
def ExecuteAt.asks (f : W → EJobPriority → Nat) : ExecuteAt W → Nat
  | .locking work priority => f work priority
  | _ => 0

def asked (s : CThreadPool W) (f : W → EJobPriority → Nat) : Nat := tally (ExecuteAt.asks f) s.executes

variable [DecidableEq W] {s t : CThreadPool W} {move : Move W} {out : Seen W} {index : Nat}
  {f : W → EJobPriority → Nat}

theorem notifyOne_executes {woken : Option Nat} (h : s.notifyOne woken = some t) : t.executes = s.executes := by
  cases woken with
  | some thread =>
    simp only [notifyOne] at h
    split at h
    · cases h
      rfl
    · cases h
  | none =>
    simp only [notifyOne] at h
    split at h
    · cases h
    · cases h
      rfl

omit [DecidableEq W] in
theorem terminateStep_executes (h : s.terminateStep s.terminating = some (t, out)) :
    t.executes = s.executes ∧ ∀ item, out ≠ .queued item := by
  cases hat : s.terminating with
  | uncalled =>
    rw [hat] at h
    cases h
  | locking =>
    rw [hat] at h
    cases h
    exact ⟨rfl, by simp⟩
  | notifying =>
    rw [hat] at h
    cases h
    exact ⟨rfl, by simp⟩
  | joining thread =>
    simp only [hat, terminateStep] at h
    split at h
    · cases h
      exact ⟨rfl, by simp⟩
    · cases h
    · cases h
      exact ⟨rfl, by simp⟩
  | returned =>
    rw [hat] at h
    cases h

omit [DecidableEq W] in
theorem workStep_executes {thread : Nat} {worker : WorkerAt W} (h : s.workStep thread worker = some (t, out)) :
    t.executes = s.executes ∧ ∀ item, out ≠ .queued item := by
  cases worker with
  | locking =>
    simp only [workStep] at h
    split at h
    · cases h
      exact ⟨rfl, by simp⟩
    · cases h
  | waiting => cases h
  | holding item =>
    cases h
    exact ⟨rfl, by simp⟩
  | executing item =>
    cases h
    exact ⟨rfl, by simp⟩
  | exited => cases h

theorem popStep_executes {thread top : Nat} (h : s.popStep thread top = some (t, out)) :
    t.executes = s.executes ∧ ∀ item, out ≠ .queued item := by
  unfold popStep at h
  split at h
  · obtain ⟨item, _, hpop⟩ := Option.bind_eq_some_iff.mp h
    split at hpop
    · cases hpop
      exact ⟨rfl, by simp⟩
    · cases hpop
  · cases h

theorem executeStep_asked {woken : Option Nat} {call : ExecuteAt W} (hat : s.executes[index]? = some call)
    (h : s.executeStep index woken call = some (t, out)) : s.asked f = out.queues f + t.asked f := by
  cases call with
  | locking work priority =>
    cases h
    have hset := tally_set (f := ExecuteAt.asks f) (b := .notifying) hat
    change _ + f work priority = _ + 0 at hset
    simp only [asked, setExecute, Seen.queues]
    omega
  | notifying =>
    obtain ⟨next, hnext, heq⟩ := Option.map_eq_some_iff.mp h
    cases heq
    have hset := tally_set (f := ExecuteAt.asks f) (b := .done) hat
    change _ + 0 = _ + 0 at hset
    have hsame := notifyOne_executes hnext
    simp only [asked, setExecute, hsame, Seen.queues]
    omega
  | done => cases h

/-- Work is queued only as that of a call of Execute, and no call's work is lost. -/
theorem step_asked (h : s.step move = some (t, out)) : s.asked f + move.asks f = out.queues f + t.asked f := by
  have hsame (h : t.executes = s.executes ∧ ∀ item, out ≠ .queued item) :
      s.asked f + 0 = out.queues f + t.asked f := by
    have hout : out.queues f = 0 := by
      cases out with
      | queued item => exact absurd rfl (h.2 item)
      | _ => rfl
    rw [hout, asked, asked, h.1, Nat.add_comm]
  cases move with
  | execute work priority =>
    cases work with
    | some work =>
      cases h
      simp [asked, executeBegin, Seen.queues, Move.asks, ExecuteAt.asks]
    | none =>
      cases h
      simp [asked, executeBegin, Seen.queues, Move.asks, ExecuteAt.asks]
  | call index woken =>
    obtain ⟨call, hat, hcall⟩ := Option.bind_eq_some_iff.mp h
    exact executeStep_asked hat hcall
  | terminate =>
    simp only [step] at h
    split at h
    · cases h
      exact hsame ⟨rfl, by simp⟩
    · cases h
  | terminating => exact hsame (terminateStep_executes h)
  | pop thread top => exact hsame (popStep_executes h)
  | work thread =>
    obtain ⟨worker, _, hwork⟩ := Option.bind_eq_some_iff.mp h
    exact hsame (workStep_executes hwork)
  | wake thread =>
    obtain ⟨next, hnext, heq⟩ := Option.map_eq_some_iff.mp h
    cases heq
    exact hsame ⟨notifyOne_executes hnext, by simp⟩

/-- All the work of the calls of Execute is queued, but for that of the calls before their
locked section. -/
theorem run_asked {is : List (Move W)} {os : List (Seen W)} (hr : (threadPool W).run s is = some (t, os)) :
    s.asked f + tally (Move.asks f) is = tally (Seen.queues f) os + t.asked f :=
  Machine.run_owes_tally (fun s => s.asked f) (fun _ _ _ _ hst => step_asked hst) hr

end CThreadPool

end TgeCore.Threading
