import TgeCore.Threading.SerialBooks

namespace TgeCore.Threading
open Library

section Statement
variable {I T : Type}

/-- The worker is blocked, and the thread that has told it to stop waits for its end. -/
def CSerialJobQueue.Hung (s : CSerialJobQueue I T) : Prop :=
  s.worker = .blocked ∧ s.shouldStop = true ∧ ∃ flush, s.owner = .joining flush

/-- A move that is Stop's notify. -/
def CSerialJobQueue.notifies (s : CSerialJobQueue I T) : SerialMove I T → Bool
  | .owner =>
    match s.owner with
    | .notifying _ => true
    | _ => false
  | _ => false

/-- Stop does not notify while the worker has found nothing to do and is not blocked yet. -/
def CSerialJobQueue.InTime (s : CSerialJobQueue I T) (m : SerialMove I T) : Prop :=
  s.notifies m = true → s.worker ≠ .willBlock

end Statement

variable {I T : Type} [DecidableEq I] {s s' : CSerialJobQueue I T} {out : SerialSeen I}

instance (s : CSerialJobQueue I T) (m : SerialMove I T) : Decidable (s.InTime m) :=
  inferInstanceAs (Decidable (_ → _))

/-- From its store on, Stop's flag is set, and once it has notified in time the worker is
neither blocked nor about to be. -/
structure CSerialJobQueue.Stopping (s : CSerialJobQueue I T) : Prop where
  notifying : ∀ flush, s.owner = .notifying flush → s.shouldStop = true
  joining : ∀ flush, s.owner = .joining flush →
    s.shouldStop = true ∧ s.worker ≠ .willBlock ∧ s.worker ≠ .blocked

/-- The worker blocks when it has evaluated its predicate, and that was false. -/
theorem workerStep_blocks (h : s.workerStep = some (s', out)) :
    s'.shouldStop = s.shouldStop ∧ s'.owner = s.owner ∧
      (s'.worker = .willBlock → s.shouldStop = false) ∧
      (s'.worker = .blocked → s.worker = .willBlock) := by
  cases hw : s.worker with
  | evaluating =>
    simp only [CSerialJobQueue.workerStep, hw] at h
    cases h
    refine ⟨rfl, rfl, ?_, ?_⟩
    · cases hstop : s.shouldStop with
      | true => simp [CSerialJobQueue.hasWork, hstop]
      | false => exact fun _ => rfl
    · cases s.hasWork with
      | true => simp
      | false => simp
  | popped entry shouldProcess =>
    simp only [CSerialJobQueue.workerStep, hw] at h
    cases h
    cases shouldProcess with
    | true => exact ⟨rfl, rfl, by simp, by simp⟩
    | false => exact ⟨rfl, rfl, by simp, by simp⟩
  | willBlock =>
    simp only [CSerialJobQueue.workerStep, hw] at h
    cases h
    exact ⟨rfl, rfl, by simp, fun _ => rfl⟩
  | _ =>
    simp only [CSerialJobQueue.workerStep, hw] at h
    repeat' first | split at h | cases h
    all_goals exact ⟨rfl, rfl, by simp, by simp⟩

omit [DecidableEq I] in
/-- A notify makes nobody wait. -/
theorem notify_awake (h : s.worker ≠ .willBlock ∧ s.worker ≠ .blocked) :
    s.notify.worker ≠ .willBlock ∧ s.notify.worker ≠ .blocked := by
  obtain ⟨-, hwoken⟩ | ⟨-, hsame⟩ := notify_worker s
  · rw [hwoken]
    exact ⟨by simp, by simp⟩
  · rwa [hsame]

omit [DecidableEq I] in
/-- Before the store and after the join there is nothing to keep. -/
theorem CSerialJobQueue.Stopping.elsewhere (hnotifying : ∀ flush, s.owner ≠ .notifying flush)
    (hjoining : ∀ flush, s.owner ≠ .joining flush) : s.Stopping :=
  ⟨fun flush ho => absurd ho (hnotifying flush), fun flush ho => absurd ho (hjoining flush)⟩

omit [DecidableEq I] in
theorem CSerialJobQueue.Stopping.notified (h : s.Stopping) {flush : Bool} (ho : s.owner = .notifying flush)
    (hp : s.worker ≠ .willBlock) : CSerialJobQueue.Stopping { s.notify with owner := .joining flush } := by
  refine ⟨by simp, fun _ _ => ⟨(notify_shouldStop s).trans (h.notifying flush ho), ?_⟩⟩
  obtain ⟨-, hwoken⟩ | ⟨hawake, hsame⟩ := notify_worker s
  · change s.notify.worker ≠ .willBlock ∧ s.notify.worker ≠ .blocked
    rw [hwoken]
    exact ⟨by simp, by simp⟩
  · change s.notify.worker ≠ .willBlock ∧ s.notify.worker ≠ .blocked
    rw [hsame]
    exact ⟨hp, hawake⟩

omit [DecidableEq I] in
theorem CSerialJobQueue.Stopping.ownerStep (h : s.Stopping) (hp : s.InTime .owner)
    (hst : s.ownerStep = some (s', out)) : s'.Stopping := by
  cases ho : s.owner with
  | settingStop flush =>
    simp only [CSerialJobQueue.ownerStep, ho] at hst
    cases hst
    exact ⟨fun _ _ => rfl, by simp⟩
  | notifying flush =>
    simp only [CSerialJobQueue.ownerStep, ho] at hst
    cases hst
    exact h.notified ho (hp (by simp [CSerialJobQueue.notifies, ho]))
  | loadingStart =>
    simp only [CSerialJobQueue.ownerStep, ho] at hst
    cases hst
    cases s.isRunning with
    | true => exact .elsewhere (by simp) (by simp)
    | false => exact .elsewhere (by simp) (by simp)
  | loadingStop flush =>
    simp only [CSerialJobQueue.ownerStep, ho] at hst
    cases hst
    cases s.isRunning with
    | true => exact .elsewhere (by simp) (by simp)
    | false =>
      cases flush with
      | true => exact .elsewhere (by simp) (by simp)
      | false => exact .elsewhere (by simp) (by simp)
  | resetting flush =>
    simp only [CSerialJobQueue.ownerStep, ho] at hst
    cases hst
    cases flush with
    | true => exact .elsewhere (by simp) (by simp)
    | false => exact .elsewhere (by simp) (by simp)
  | _ =>
    simp only [CSerialJobQueue.ownerStep, ho] at hst
    repeat' first | split at hst | cases hst
    all_goals exact .elsewhere (by simp) (by simp)

omit [DecidableEq I] in
/-- A step that is not the owner's leaves its flag alone, and if the worker is neither
blocked nor about to be, so it is after it. -/
theorem CSerialJobQueue.Stopping.frame (h : s.Stopping) (howner : s'.owner = s.owner)
    (hstop : s'.shouldStop = s.shouldStop)
    (hawake : s.shouldStop = true → s.worker ≠ .willBlock ∧ s.worker ≠ .blocked →
      s'.worker ≠ .willBlock ∧ s'.worker ≠ .blocked) : s'.Stopping := by
  refine ⟨?_, ?_⟩
  · rw [howner, hstop]
    exact h.notifying
  · rw [howner, hstop]
    intro flush hjoining
    obtain ⟨htold, hbefore⟩ := h.joining flush hjoining
    exact ⟨htold, hawake htold hbefore⟩

theorem CSerialJobQueue.Stopping.step [DecidableEq T] (h : s.Stopping) {m : SerialMove I T}
    (hp : s.InTime m) (hst : s.step m = some (s', out)) : s'.Stopping := by
  rcases step_cases hst with hw | ⟨rfl, ho⟩ | ⟨thread, hc⟩ |
    ⟨-, ⟨thread, inCall, -, -, rfl⟩ | ⟨-, rfl | ⟨flush, rfl⟩⟩⟩
  · obtain ⟨hstop, howner, hwill, hblocked⟩ := workerStep_blocks hw
    apply h.frame howner hstop
    intro htold hbefore
    refine ⟨fun hw' => ?_, fun hw' => hbefore.1 (hblocked hw')⟩
    rw [hwill hw'] at htold
    cases htold
  · exact h.ownerStep hp ho
  · obtain ⟨-, hstop, howner, hworker⟩ := clientStep_frame hc
    apply h.frame howner hstop
    intro _ hbefore
    cases hworker with
    | inl hsame => rwa [hsame]
    | inr hnotified =>
      rw [hnotified]
      exact notify_awake hbefore
  · exact h.frame rfl rfl fun _ hbefore => hbefore
  · exact .elsewhere (by simp) (by simp)
  · exact .elsewhere (by simp) (by simp)

/-- A Stop whose notify comes in time never waits for a worker that is blocked. -/
theorem stop_neverHangs [DecidableEq T] {is : List (SerialMove I T)} {os : List (SerialSeen I)}
    (hp : (serialJobQueue I T).Along CSerialJobQueue.InTime {} is)
    (hr : (serialJobQueue I T).run {} is = some (s, os)) : ¬ s.Hung := by
  have hstopping := hp.keeps CSerialJobQueue.Stopping (fun _ _ _ _ h hp hst => h.step hp hst)
    (.elsewhere (by simp) (by simp)) hr
  intro hhung
  obtain ⟨hblocked, _, flush, hjoining⟩ := hhung
  exact (hstopping.joining flush hjoining).2.2 hblocked

/-- The queue is started, the worker blocks, and Stop's notify wakes it. -/
def stoppedWhileBlocked : List (SerialMove String Unit) :=
  [.start, .owner, .owner, .owner, .owner, .worker, .worker, .worker, .stop, .owner, .owner, .owner]

theorem stop_neverHangs_blocked : ∃ s os,
    (serialJobQueue String Unit).run {} stoppedWhileBlocked = some (s, os) ∧
    s.worker = .locking ∧ s.owner = .joining false ∧ ¬ s.Hung := by
  have hrun : ((serialJobQueue String Unit).run {} stoppedWhileBlocked).map
      (fun r => (r.1.worker, r.1.owner)) = some (.locking, .joining false) := by decide +kernel
  have htime : (serialJobQueue String Unit).Along CSerialJobQueue.InTime {} stoppedWhileBlocked := by
    decide +kernel
  obtain ⟨⟨s, os⟩, hr, hseen⟩ := Option.map_eq_some_iff.mp hrun
  obtain ⟨hw, ho⟩ := Prod.mk.inj hseen
  exact ⟨s, os, hr, hw, ho, stop_neverHangs htime hr⟩

/-- The worker has found nothing to do when Stop sets its flag and notifies, and blocks
after that. -/
def stoppedWhileEvaluating : List (SerialMove String Unit) :=
  [.start, .owner, .owner, .owner, .owner, .worker, .worker, .stop, .owner, .owner, .owner, .worker]

theorem stop_hangs : ∃ s os,
    (serialJobQueue String Unit).run {} stoppedWhileEvaluating = some (s, os) ∧ s.Hung := by
  have hrun : ((serialJobQueue String Unit).run {} stoppedWhileEvaluating).map
      (fun r => (r.1.worker, r.1.shouldStop, r.1.owner)) = some (.blocked, true, .joining false) := by
    decide +kernel
  obtain ⟨⟨s, os⟩, hr, hseen⟩ := Option.map_eq_some_iff.mp hrun
  obtain ⟨hw, hrest⟩ := Prod.mk.inj hseen
  obtain ⟨hstop, ho⟩ := Prod.mk.inj hrest
  exact ⟨s, os, hr, hw, hstop, false, ho⟩

end TgeCore.Threading
