import Mathlib.Algebra.Group.Nat.Defs
import TgeCore.Threading.PoolCalls

namespace TgeCore.Threading
open Library

namespace CThreadPool
variable {W : Type}

/-- Priority first, then the order in which the items were queued. -/
def SWorkItem.order (item : SWorkItem W) : Nat ×ₗ Nat := toLex (item.priority.value, item.number)

/-- Some worker has not left its loop. -/
def Attended (s : CThreadPool W) : Prop := ∃ worker ∈ s.threads, worker ≠ .exited

section Attended
variable {s t : CThreadPool W} {out : Seen W} {n : Nat} {item : SWorkItem W}

theorem Attended.set {thread : Nat} {worker worker' : WorkerAt W} (hat : s.threads[thread]? = some worker)
    (hlive : worker' ≠ .exited) : (s.setThread thread worker').Attended :=
  ⟨worker', List.mem_set (List.getElem?_eq_some_iff.mp hat).1 worker', hlive⟩

/-- The last worker leaves an empty queue. -/
theorem Attended.change (h : s.Attended) (hphases : s.Phases n) (hc : Change s t out) :
    t.Attended ∨ t.workQueue = [] := by
  cases hc with
  | call executes => exact .inl h
  | queue executes item _ _ => exact .inl h
  | wake executes thread hat => exact .inl ⟨.locking, List.mem_set (List.getElem?_eq_some_iff.mp hat).1 _, by simp⟩
  | wait thread hat _ _ => exact .inl (Attended.set hat (by simp))
  | exit thread _ hempty _ => exact .inr hempty
  | pop thread top item hat _ _ => exact .inl (Attended.set (s := { s with workQueue := _ }) hat (by simp))
  | start thread item hat => exact .inl (Attended.set hat (by simp))
  | finish thread item hat => exact .inl (Attended.set hat (by simp))
  | ask _ => exact .inl h
  | flag _ => exact .inl h
  | wakeAll _ =>
    obtain ⟨worker, hworker, hlive⟩ := h
    refine .inl ⟨worker.woken, List.mem_map_of_mem hworker, ?_⟩
    cases worker <;> simp_all [WorkerAt.woken]
  | join thread _ _ => exact .inl h
  | clear thread hat hall =>
    obtain ⟨worker, hworker, hlive⟩ := h
    exact absurd (hphases.all_exited hat hall worker hworker) hlive

/-- What is in the queue after a step was there before, or is the next item. -/
theorem Change.mem_queue (hc : Change s t out) (hitem : item ∈ t.workQueue) :
    item ∈ s.workQueue ∨ item.number = s.queued := by
  cases hc with
  | queue executes new _ hnumber =>
    rcases List.mem_append.mp hitem with hold | hnew
    · exact .inl hold
    · obtain rfl : item = new := by simpa using hnew
      exact .inr hnumber
  | pop thread top _ _ _ _ => exact .inl (List.mem_of_mem_eraseIdx hitem)
  | _ => exact .inl hitem

/-- Where no worker is left none comes back, and nothing is taken from the queue. -/
theorem Change.unattended (hc : Change s t out) (hnone : ¬s.Attended) :
    ¬t.Attended ∧ ∀ item ∈ s.workQueue, item ∈ t.workQueue := by
  have hgone {thread : Nat} {worker : WorkerAt W} (hat : s.threads[thread]? = some worker)
      (hlive : worker ≠ .exited) : False := hnone ⟨worker, List.mem_of_getElem? hat, hlive⟩
  cases hc with
  | call executes => exact ⟨hnone, fun _ => id⟩
  | queue executes item _ _ => exact ⟨hnone, fun _ => List.mem_append_left _⟩
  | wake executes thread hat => exact (hgone hat (by simp)).elim
  | wait thread hat _ _ => exact (hgone hat (by simp)).elim
  | exit thread hat _ _ => exact (hgone hat (by simp)).elim
  | pop thread top item hat _ _ => exact (hgone hat (by simp)).elim
  | start thread item hat => exact (hgone hat (by simp)).elim
  | finish thread item hat => exact (hgone hat (by simp)).elim
  | ask _ => exact ⟨hnone, fun _ => id⟩
  | flag _ => exact ⟨hnone, fun _ => id⟩
  | wakeAll _ =>
    refine ⟨fun hattended => hnone ?_, fun _ => id⟩
    obtain ⟨worker, hworker, hlive⟩ := hattended
    obtain ⟨old, hold, rfl⟩ := List.mem_map.mp hworker
    exact ⟨old, hold, fun hexited => hlive (by rw [hexited]; rfl)⟩
  | join thread _ _ => exact ⟨hnone, fun _ => id⟩
  | clear thread _ _ => exact ⟨fun hattended => List.not_mem_nil hattended.choose_spec.1, fun _ => id⟩

theorem Change.queued_le (hc : Change s t out) : s.queued ≤ t.queued := by
  cases hc with
  | queue executes new _ _ => exact Nat.le_succ _
  | _ => exact Nat.le_refl _

end Attended

section Drain
variable [DecidableEq W] {s t : CThreadPool W} {out : Seen W} {os os' : List (Seen W)} {is : List (Move W)}
  {n : Nat} {item : SWorkItem W}

/-- An item that waits for a worker has one. -/
structure Served (item : SWorkItem W) (s : CThreadPool W) : Prop where
  old : item.number < s.queued
  attended : item ∈ s.workQueue → s.Attended

theorem Served.run (h : Served item s) (hsound : s.Sound n os) (hr : (threadPool W).run s is = some (t, os')) :
    Served item t := by
  have hstep : ∀ s i t o, (Served item s ∧ ∃ os, s.Sound n os) → (threadPool W).step s i = some (t, o) →
      Served item t ∧ ∃ os, t.Sound n os := by
    rintro s move t out ⟨hserved, os, hsound⟩ hst
    have hc := step_change hst
    refine ⟨⟨Nat.lt_of_lt_of_le hserved.old hc.queued_le, fun hitem => ?_⟩, _, hsound.step hst⟩
    rcases hc.mem_queue hitem with hold | hnew
    · rcases (hserved.attended hold).change hsound.phases hc with hattended | hempty
      · exact hattended
      · rw [hempty] at hitem
        cases hitem
    · exact absurd hnew (Nat.ne_of_lt hserved.old)
  exact (Machine.run_keeps _ hstep ⟨h, os, hsound⟩ hr).1

/-- After Terminate an item that was served is finished. -/
theorem Sound.drained (h : s.Sound n os) (hreturned : s.terminating = .returned) (hserved : Served item s)
    (hitem : .queued item ∈ os) : os.count (.started item) = 1 ∧ os.count (.finished item) = 1 := by
  have hthreads := h.phases.returned hreturned
  have hgone : item ∉ s.workQueue := fun hmem => by
    obtain ⟨worker, hworker, _⟩ := hserved.attended hmem
    rw [hthreads] at hworker
    cases hworker
  have honce := h.books.once item
  have hpos := List.count_pos_iff.mpr hitem
  have hqueue := h.books.queue item
  have hwork := h.books.work item
  rw [hthreads, List.count_eq_zero_of_not_mem hgone] at hqueue
  rw [hthreads] at hwork
  simp only [tally_nil] at hqueue hwork
  omega

/-- An item that no worker is left for stays in the queue. -/
theorem unserved_run (hnone : ¬s.Attended) (hitem : item ∈ s.workQueue)
    (hr : (threadPool W).run s is = some (t, os)) : item ∈ t.workQueue := by
  have hstep : ∀ s i t o, (¬s.Attended ∧ item ∈ s.workQueue) → (threadPool W).step s i = some (t, o) →
      ¬t.Attended ∧ item ∈ t.workQueue := by
    rintro s move t out ⟨hnone, hitem⟩ hst
    have hunattended := (step_change hst).unattended hnone
    exact ⟨hunattended.1, hunattended.2 item hitem⟩
  exact (Machine.run_keeps _ hstep ⟨hnone, hitem⟩ hr).2

theorem Sound.unfinished (h : s.Sound n os) (hitem : item ∈ s.workQueue) : os.count (.finished item) = 0 := by
  have hpos := List.count_pos_iff.mpr hitem
  have honce := h.books.once item
  have hqueue := h.books.queue item
  have hwork := h.books.work item
  omega

/-- An item is finished when Terminate has returned if and only if a worker was left when
it was queued. -/
theorem Sound.finished_iff (h : s.Sound n os) {move : Move W} (hst : s.step move = some (t, .queued item))
    {u : CThreadPool W} (hr : (threadPool W).run t is = some (u, os')) (hreturned : u.terminating = .returned) :
    (os ++ [Seen.queued item] ++ os').count (Seen.finished item) = 1 ↔ s.Attended := by
  have hqueued := h.step hst
  obtain ⟨hnumber, hlater, hmem, hthreads⟩ : item.number = s.queued ∧ s.queued < t.queued ∧
      item ∈ t.workQueue ∧ t.threads = s.threads := by
    cases step_change hst with
    | queue executes _ _ hnumber =>
      exact ⟨hnumber, Nat.lt_succ_self _, List.mem_append_right _ List.mem_cons_self, rfl⟩
  have hsame : t.Attended ↔ s.Attended := by rw [Attended, Attended, hthreads]
  constructor
  · intro hone
    by_contra hnone
    have hstays := unserved_run (mt hsame.mp hnone) hmem hr
    rw [(hqueued.run hr).unfinished hstays] at hone
    cases hone
  · intro hattended
    have hserved : Served item t := ⟨by omega, fun _ => hsame.mpr hattended⟩
    have hin : Seen.queued item ∈ os ++ [Seen.queued item] ++ os' := by simp
    exact ((hqueued.run hr).drained hreturned (hserved.run hqueued hr) hin).2

/-- Before Terminate is called every worker is left that the pool has. -/
theorem Sound.attended_iff (h : s.Sound n os) (huncalled : s.terminating = .uncalled) : s.Attended ↔ 0 < n := by
  have hlength := h.phases.length (by simp [huncalled])
  constructor
  · rintro ⟨worker, hworker, _⟩
    have := List.length_pos_of_mem hworker
    omega
  · intro hpos
    have hlt : 0 < s.threads.length := by omega
    refine ⟨s.threads[0], List.getElem_mem hlt, fun hexited => ?_⟩
    have hflag := h.phases.flag.mp (h.phases.exited (hexited ▸ List.getElem_mem hlt))
    exact hflag.1 huncalled

/-- Before Terminate is called every item has a worker, if the pool has any. -/
theorem Sound.served (h : s.Sound n os) (hpos : 0 < n) (huncalled : s.terminating = .uncalled)
    (hitem : .queued item ∈ os) : Served item s :=
  ⟨h.books.number item hitem, fun _ => (h.attended_iff huncalled).mpr hpos⟩

end Drain

section Order
variable {s t : CThreadPool W} {out : Seen W} {item other : SWorkItem W}

theorem value_injective : Function.Injective EJobPriority.value := by
  intro a b h
  cases a <;> cases b <;> first | rfl | cases h

/-- What the heap compares the items by. -/
def SWorkItem.key (item : SWorkItem W) : Nat ×ₗ Nat := toLex (item.priority.value, item.sequence.toNat)

theorem SWorkItem.less_iff : item.less other = true ↔ other.key < item.key := by
  rw [less, key, key, Prod.Lex.toLex_lt_toLex]
  split
  · rename_i hne
    have hvalue : other.priority.value ≠ item.priority.value := fun heq => hne (value_injective heq).symm
    simp [hvalue]
  · rename_i heq
    rw [not_not.mp heq]
    simp [UInt64.lt_iff_toNat_lt]

/-- While the sequence has not wrapped, it is the order of the submissions. -/
theorem Numbered.key_eq (h : s.Numbered) (hbound : s.queued ≤ 2 ^ 64) (hitem : item ∈ s.workQueue) :
    item.key = item.order := by
  obtain ⟨hsequence, hlt⟩ := h.queue item hitem
  rw [SWorkItem.key, SWorkItem.order, hsequence, UInt64.toNat_ofNat', Nat.mod_eq_of_lt (by omega)]

theorem Change.popped_least (hc : Change s t (.popped item)) (h : s.Numbered) (hbound : s.queued ≤ 2 ^ 64) :
    item ∈ s.workQueue ∧ ∀ other ∈ s.workQueue, item.order ≤ other.order := by
  cases hc with
  | pop thread top _ _ hitem htop =>
    have hmem := List.mem_of_getElem? hitem
    refine ⟨hmem, fun other hother => ?_⟩
    rw [← h.key_eq hbound hmem, ← h.key_eq hbound hother]
    exact not_lt.mp (mt SWorkItem.less_iff.mpr (htop other hother))

theorem exists_top (hsome : s.workQueue ≠ []) :
    ∃ (top : Nat) (item : SWorkItem W), s.workQueue[top]? = some item ∧ ∀ other ∈ s.workQueue, ¬item.less other := by
  cases hleast : s.workQueue.argmin SWorkItem.key with
  | none => exact absurd (List.argmin_eq_none.mp hleast) hsome
  | some item =>
    obtain ⟨top, htop⟩ := List.getElem?_of_mem (List.argmin_mem hleast)
    refine ⟨top, item, htop, fun other hother hless => ?_⟩
    have hle := List.le_of_mem_argmin hother hleast
    exact absurd (SWorkItem.less_iff.mp hless) (not_lt.mpr hle)

end Order

section Progress
variable [DecidableEq W] {s t : CThreadPool W} {os : List (Seen W)} {is : List (Move W)} {n thread : Nat}

/-- A worker by itself comes to the end of its loop once the flag is set. -/
def MayExit (s : CThreadPool W) (thread : Nat) : Prop :=
  ∃ t, (threadPool W).Leads s t ∧ t.threads[thread]? = some .exited ∧ t.terminating = s.terminating

theorem MayExit.later {move : Move W} {out : Seen W} (hst : s.step move = some (t, out))
    (hsame : t.terminating = s.terminating) (h : t.MayExit thread) : s.MayExit thread := by
  obtain ⟨u, hleads, hexited, hat⟩ := h
  exact ⟨u, .head hst hleads, hexited, hat.trans hsame⟩

omit [DecidableEq W] in
theorem setThread_at {worker worker' : WorkerAt W} (hat : s.threads[thread]? = some worker) :
    (s.setThread thread worker').threads[thread]? = some worker' :=
  List.getElem?_set_self (List.getElem?_eq_some_iff.mp hat).1

theorem mayExit_executing {item : SWorkItem W} (hat : s.threads[thread]? = some (.executing item))
    (h : (s.setThread thread .locking).MayExit thread) : s.MayExit thread := by
  have hst : s.step (.work thread) = some (s.setThread thread .locking, .finished item) :=
    Option.bind_eq_some_iff.mpr ⟨_, hat, rfl⟩
  exact .later hst rfl h

theorem mayExit_holding {item : SWorkItem W} (hat : s.threads[thread]? = some (.holding item))
    (h : (s.setThread thread .locking).MayExit thread) : s.MayExit thread := by
  have hst : s.step (.work thread) = some (s.setThread thread (.executing item), .started item) :=
    Option.bind_eq_some_iff.mpr ⟨_, hat, rfl⟩
  refine .later hst rfl (mayExit_executing (setThread_at hat) ?_)
  rwa [setThread, setThread, List.set_set]

/-- The induction is on the items that are queued. -/
theorem mayExit_locking (hflag : s.shouldTerminate = true) (hat : s.threads[thread]? = some .locking) :
    s.MayExit thread := by
  induction hcount : s.workQueue.length generalizing s with
  | zero =>
    have hempty := List.length_eq_zero_iff.mp hcount
    have hst : s.step (.work thread) = some (s.setThread thread .exited, .nothing) :=
      Option.bind_eq_some_iff.mpr ⟨_, hat, by simp [workStep, hempty, hflag]⟩
    exact .later hst rfl ⟨_, .refl _, setThread_at hat, rfl⟩
  | succ count ih =>
    obtain ⟨top, item, hitem, htop⟩ := exists_top (s := s) (by simp [← List.length_eq_zero_iff, hcount])
    have hst : s.step (.pop thread top) = some ({ s with
        workQueue := s.workQueue.eraseIdx top }.setThread thread (.holding item), .popped item) := by
      rw [step, popStep, if_pos hat, hitem, Option.bind_some, if_pos htop]
    refine .later hst rfl (mayExit_holding (setThread_at hat) ?_)
    refine ih ?_ (setThread_at (setThread_at hat)) ?_
    · exact hflag
    · have hlt := (List.getElem?_eq_some_iff.mp hitem).1
      simp only [setThread, List.length_eraseIdx_of_lt hlt]
      omega

theorem Sound.mayExit (h : s.Sound n os) {next : Nat} (hjoining : s.terminating = .joining next)
    {worker : WorkerAt W} (hat : s.threads[thread]? = some worker) : s.MayExit thread := by
  have hflag : s.shouldTerminate = true := h.phases.flag.mpr (by simp [hjoining])
  cases worker with
  | locking => exact mayExit_locking hflag hat
  | waiting => exact absurd (List.mem_of_getElem? hat) (h.phases.awake next hjoining)
  | holding item => exact mayExit_holding hat (mayExit_locking hflag (setThread_at hat))
  | executing item => exact mayExit_executing hat (mayExit_locking hflag (setThread_at hat))
  | exited => exact ⟨s, .refl s, hat, rfl⟩

/-- Terminate may come back. -/
def MayReturn (s : CThreadPool W) : Prop := ∃ t, (threadPool W).Leads s t ∧ t.terminating = .returned

theorem MayReturn.later {move : Move W} {out : Seen W} (hst : s.step move = some (t, out))
    (h : t.MayReturn) : s.MayReturn := by
  obtain ⟨u, hleads, hreturned⟩ := h
  exact ⟨u, .head hst hleads, hreturned⟩

/-- The induction is on the threads that are still to be joined. -/
theorem Sound.joins (h : s.Sound n os) {next : Nat} (hjoining : s.terminating = .joining next) :
    s.MayReturn := by
  have hlength := h.phases.length (by simp [hjoining])
  induction hleft : n - next generalizing s os next with
  | zero =>
    have hnone : s.threads[next]? = none := List.getElem?_eq_none_iff.mpr (by omega)
    have hst : s.step .terminating = some ({ s with threads := [], terminating := .returned }, .nothing) := by
      rw [CThreadPool.step, hjoining, terminateStep, hnone]
    exact .later hst ⟨_, .refl _, rfl⟩
  | succ left ih =>
    have hlt : next < s.threads.length := by omega
    obtain ⟨t, ⟨is, os', hr⟩, hexited, hat⟩ := h.mayExit hjoining (List.getElem?_eq_getElem hlt)
    have hst : t.step .terminating = some ({ t with terminating := .joining (next + 1) }, .nothing) := by
      rw [CThreadPool.step, hat, hjoining, terminateStep, hexited]
    have hsound := (h.run hr).step hst
    have hlater : t.MayReturn := .later hst (ih hsound rfl (hsound.phases.length (by simp)) (by omega))
    obtain ⟨u, hleads, hreturned⟩ := hlater
    exact ⟨u, .trans ⟨is, os', hr⟩ hleads, hreturned⟩

theorem Sound.notifies (h : s.Sound n os) (hat : s.terminating = .notifying) : s.MayReturn := by
  have hst : s.step .terminating =
      some ({ s with threads := s.threads.map WorkerAt.woken, terminating := .joining 0 }, .nothing) := by
    rw [CThreadPool.step, hat, terminateStep]
  exact .later hst ((h.step hst).joins rfl)

theorem Sound.mayReturn (h : s.Sound n os) (hcalled : s.terminating ≠ .uncalled) : s.MayReturn := by
  cases hat : s.terminating with
  | uncalled => exact absurd hat hcalled
  | locking =>
    have hst : s.step .terminating =
        some ({ s with shouldTerminate := true, terminating := .notifying }, .nothing) := by
      rw [CThreadPool.step, hat, terminateStep]
    exact .later hst ((h.step hst).notifies rfl)
  | notifying => exact h.notifies hat
  | joining next => exact h.joins hat
  | returned => exact ⟨s, .refl s, hat⟩

end Progress

section Results
variable [DecidableEq W]

/-- Nothing leaves the queue but by a pop. -/
theorem Change.leaves {s t : CThreadPool W} {out : Seen W} {item : SWorkItem W} (h : Change s t out)
    (hless : t.workQueue.count item < s.workQueue.count item) : out = .popped item := by
  cases h with
  | pop thread top other hat hitem htop =>
    have hcount := count_eraseIdx (b := item) hitem
    change (s.workQueue.eraseIdx top).count item < _ at hless
    by_cases heq : other = item
    · rw [heq]
    · rw [if_neg heq] at hcount
      omega
  | queue executes other =>
    change (s.workQueue ++ [other]).count item < _ at hless
    rw [List.count_append] at hless
    omega
  | _ => exact absurd hless (Nat.lt_irrefl _)

/-- Every call of Execute queues its work, once it is past its locked section, and every pop
takes the least item, until 2^64 items have been queued. What was queued before Terminate was
called has run exactly once when it returns, and it can always return. -/
structure ExecutesInOrder (is : List (Move W)) (os : List (Seen W)) (s : CThreadPool W) : Prop where
  own : ∀ f, tally (Move.asks f) is = tally (Seen.queues f) os + s.asked f
  goesOn : ∀ (index : Nat) work priority woken, s.executes[index]? = some (.locking work priority) →
    ∃ t item, s.step (.call index woken) = some (t, .queued item) ∧ item.work = work ∧ item.priority = priority
  order : s.queued ≤ 2 ^ 64 → ∀ move t item, s.step move = some (t, .popped item) →
    item ∈ s.workQueue ∧ ∀ other ∈ s.workQueue, item.order ≤ other.order
  leaves : ∀ move t out item, s.step move = some (t, out) →
    t.workQueue.count item < s.workQueue.count item → out = .popped item
  drain : s.terminating = .uncalled → ∀ is t os', (threadPool W).run s is = some (t, os') →
    t.terminating = .returned → ∀ item, .queued item ∈ os →
      (os ++ os').count (.started item) = 1 ∧ (os ++ os').count (.finished item) = 1
  returns : s.terminating ≠ .uncalled → s.MayReturn

theorem executes_in_order {numThreads : Nat} (hpos : 0 < numThreads) {is : List (Move W)} {os : List (Seen W)}
    {s : CThreadPool W} (hr : (threadPool W).run (create numThreads) is = some (s, os)) : ExecutesInOrder is os s := by
  have hsound : s.Sound numThreads os := (Sound.create numThreads).run hr
  refine ⟨fun f => ?_, fun index work priority woken hat => ⟨_, _, by rw [step, hat]; rfl, rfl, rfl⟩,
    fun hbound move t item hst => ?_, fun move t out item hst => (step_change hst).leaves,
    fun huncalled is t os' hr' hreturned item hitem => ?_, hsound.mayReturn⟩
  · rw [← run_asked hr]
    exact (Nat.zero_add _).symm
  · exact (step_change hst).popped_least hsound.numbered hbound
  · have hserved := (hsound.served hpos huncalled hitem).run hsound hr'
    exact (hsound.run hr').drained hreturned hserved (List.mem_append_left os' hitem)

/-- A job of low priority waits, and one of high priority that came after it runs. -/
def twoItems : List (Move Nat) :=
  [.execute (some 5) .low, .call 0 none, .execute (some 6) .high, .call 1 none, .pop 1 1, .work 1]

theorem executes_in_order_two :
    ∃ s os, (threadPool Nat).run (create 2) twoItems = some (s, os) ∧ ExecutesInOrder twoItems os s := by
  have hruns : ((threadPool Nat).run (create 2) twoItems).isSome := by decide
  obtain ⟨⟨s, os⟩, hr⟩ := Option.isSome_iff_exists.mp hruns
  exact ⟨s, os, hr, executes_in_order Nat.two_pos hr⟩

end Results

section Wrap
variable {s : CThreadPool Unit} {os : List (Seen Unit)}

/-- A pool of one worker that has worked off some items, their notifies not made yet. -/
def worked (count : Nat) : CThreadPool Unit where
  threads := [.locking]
  nextSequence := UInt64.ofNat count
  executes := List.replicate count .notifying
  queued := count

def itemAt (count : Nat) : SWorkItem Unit := ⟨(), .normal, UInt64.ofNat count, count⟩

/-- The item that the pool of `worked` gets next. -/
def queuedNext (count : Nat) : CThreadPool Unit :=
  { worked count with
    workQueue := [itemAt count]
    nextSequence := UInt64.ofNat count + 1
    executes := List.replicate (count + 1) .notifying
    queued := count + 1 }

theorem worked_queues (count : Nat) : (threadPool Unit).run (worked count)
    [.execute (some ()) .normal, .call count none] =
      some (queuedNext count, [.nothing, .queued (itemAt count)]) := by
  have hcalls : List.replicate count ExecuteAt.notifying ++ [.notifying] =
      (List.replicate (count + 1) .notifying : List (ExecuteAt Unit)) := List.replicate_succ'.symm
  simp [threadPool, Machine.run, step, executeBegin, executeStep, setExecute, worked, queuedNext, itemAt, hcalls]

theorem queuedNext_works (count : Nat) : (threadPool Unit).run (queuedNext count) [.pop 0 0, .work 0, .work 0] =
    some (worked (count + 1), [.popped (itemAt count), .started (itemAt count), .finished (itemAt count)]) := by
  simp [threadPool, Machine.run, step, popStep, workStep, setThread, queuedNext, worked, itemAt,
    SWorkItem.less, UInt64.ofNat_add]

theorem run_worked (count : Nat) : ∃ is os, (threadPool Unit).run (create 1) is = some (worked count, os) := by
  induction count with
  | zero => exact ⟨[], [], rfl⟩
  | succ count ih =>
    obtain ⟨is, os, hr⟩ := ih
    have hround := Machine.run_append (worked_queues count) (queuedNext_works count)
    exact ⟨_, _, Machine.run_append hr hround⟩

/-- An item that gets the sequence zero again. -/
def lateItem (count : Nat) : SWorkItem Unit := ⟨(), .normal, 0, count + 1⟩

def queuedLate (count : Nat) : CThreadPool Unit :=
  { queuedNext count with
    workQueue := [itemAt count, lateItem count]
    nextSequence := 1
    executes := List.replicate (count + 1) .notifying ++ [.notifying]
    queued := count + 2 }

theorem queuedNext_queues {count : Nat} (hlast : UInt64.ofNat count + 1 = 0) :
    (threadPool Unit).run (queuedNext count) [.execute (some ()) .normal, .call (count + 1) none] =
      some (queuedLate count, [.nothing, .queued (lateItem count)]) := by
  simp [threadPool, Machine.run, step, executeBegin, executeStep, setExecute, queuedNext, queuedLate, lateItem,
    hlast]

theorem queuedLate_pops (count : Nat) : (queuedLate count).step (.pop 0 1) =
    some ({ queuedLate count with threads := [.holding (lateItem count)], workQueue := [itemAt count] },
      .popped (lateItem count)) := by
  simp [step, popStep, setThread, queuedLate, queuedNext, worked, lateItem, itemAt, SWorkItem.less]

/-- The 2^64-th item still waits when the next one gets the sequence zero and is popped. -/
theorem popped_out_of_order : ¬∀ is os s move t item,
    (threadPool Unit).run (create 1) is = some (s, os) → s.step move = some (t, .popped item) →
      ∀ other ∈ s.workQueue, item.order ≤ other.order := by
  intro h
  obtain ⟨count, hlast⟩ : ∃ count, UInt64.ofNat count + 1 = 0 := ⟨2 ^ 64 - 1, rfl⟩
  obtain ⟨is, os, hr⟩ := run_worked count
  have hreached := Machine.run_append (Machine.run_append hr (worked_queues count)) (queuedNext_queues hlast)
  have hle := h _ _ _ _ _ _ hreached (queuedLate_pops count) (itemAt count) List.mem_cons_self
  rw [SWorkItem.order, SWorkItem.order, Prod.Lex.toLex_le_toLex] at hle
  cases hle with
  | inl hpriority => exact Nat.lt_irrefl _ hpriority
  | inr hnumber => exact Nat.not_succ_le_self count hnumber.2

end Wrap

end CThreadPool

end TgeCore.Threading
