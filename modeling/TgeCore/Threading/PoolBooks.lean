import TgeCore.Threading.ThreadPool

namespace TgeCore.Threading
open Library

namespace CThreadPool
variable {W : Type} [DecidableEq W]

/-- What a step does: to the calls in progress, to the queue, to one worker, or to the
progress of Terminate. -/
inductive Change (s : CThreadPool W) : CThreadPool W → Seen W → Prop
  | call (executes : List (ExecuteAt W)) : Change s { s with executes } .nothing
  | queue (executes : List (ExecuteAt W)) (item : SWorkItem W) (hsequence : item.sequence = s.nextSequence)
      (hnumber : item.number = s.queued) :
      Change s
        { s with
          executes
          workQueue := s.workQueue ++ [item]
          nextSequence := s.nextSequence + 1
          queued := s.queued + 1 } (.queued item)
  | wake (executes : List (ExecuteAt W)) (thread : Nat) (h : s.threads[thread]? = some .waiting) :
      Change s { s.setThread thread .locking with executes } .nothing
  | wait (thread : Nat) (h : s.threads[thread]? = some .locking) (hempty : s.workQueue = [])
      (hflag : s.shouldTerminate = false) : Change s (s.setThread thread .waiting) .nothing
  | exit (thread : Nat) (h : s.threads[thread]? = some .locking) (hempty : s.workQueue = [])
      (hflag : s.shouldTerminate = true) : Change s (s.setThread thread .exited) .nothing
  | pop (thread top : Nat) (item : SWorkItem W) (h : s.threads[thread]? = some .locking)
      (hitem : s.workQueue[top]? = some item) (htop : ∀ other ∈ s.workQueue, ¬item.less other) :
      Change s ({ s with workQueue := s.workQueue.eraseIdx top }.setThread thread (.holding item)) (.popped item)
  | start (thread : Nat) (item : SWorkItem W) (h : s.threads[thread]? = some (.holding item)) :
      Change s (s.setThread thread (.executing item)) (.started item)
  | finish (thread : Nat) (item : SWorkItem W) (h : s.threads[thread]? = some (.executing item)) :
      Change s (s.setThread thread .locking) (.finished item)
  | ask (h : s.terminating = .uncalled) : Change s { s with terminating := .locking } .nothing
  | flag (h : s.terminating = .locking) :
      Change s { s with shouldTerminate := true, terminating := .notifying } .nothing
  | wakeAll (h : s.terminating = .notifying) :
      Change s { s with threads := s.threads.map WorkerAt.woken, terminating := .joining 0 } .nothing
  | join (thread : Nat) (h : s.terminating = .joining thread) (hexited : s.threads[thread]? = some .exited) :
      Change s { s with terminating := .joining (thread + 1) } .nothing
  | clear (thread : Nat) (h : s.terminating = .joining thread) (hall : s.threads[thread]? = none) :
      Change s { s with threads := [], terminating := .returned } .nothing

section Change
variable {s t : CThreadPool W} {out : Seen W} {move : Move W} {thread top index : Nat}

theorem notifyOne_change {woken : Option Nat} (executes : List (ExecuteAt W)) (h : s.notifyOne woken = some t) :
    Change s { t with executes } .nothing := by
  cases woken with
  | some thread =>
    simp only [notifyOne] at h
    split at h
    · rename_i hwaiting
      cases h
      exact .wake executes thread hwaiting
    · cases h
  | none =>
    simp only [notifyOne] at h
    split at h
    · cases h
    · cases h
      exact .call executes

theorem executeStep_change {woken : Option Nat} {call : ExecuteAt W}
    (h : s.executeStep index woken call = some (t, out)) : Change s t out := by
  cases call with
  | locking work priority =>
    cases h
    exact .queue _ _ rfl rfl
  | notifying =>
    obtain ⟨next, hnext, heq⟩ := Option.map_eq_some_iff.mp h
    cases heq
    exact notifyOne_change _ hnext
  | done => cases h

omit [DecidableEq W] in
theorem terminateStep_change (h : s.terminateStep s.terminating = some (t, out)) : Change s t out := by
  cases hat : s.terminating with
  | uncalled =>
    rw [hat] at h
    cases h
  | locking =>
    rw [hat] at h
    cases h
    exact .flag hat
  | notifying =>
    rw [hat] at h
    cases h
    exact .wakeAll hat
  | joining thread =>
    simp only [hat, terminateStep] at h
    split at h
    · rename_i hexited
      cases h
      exact .join thread hat hexited
    · cases h
    · rename_i hall
      cases h
      exact .clear thread hat hall
  | returned =>
    rw [hat] at h
    cases h

theorem popStep_change (h : s.popStep thread top = some (t, out)) : Change s t out := by
  unfold popStep at h
  split at h
  · rename_i hlocking
    obtain ⟨item, hitem, hpop⟩ := Option.bind_eq_some_iff.mp h
    split at hpop
    · rename_i htop
      cases hpop
      exact .pop thread top item hlocking hitem htop
    · cases hpop
  · cases h

omit [DecidableEq W] in
theorem workStep_change {worker : WorkerAt W} (hat : s.threads[thread]? = some worker)
    (h : s.workStep thread worker = some (t, out)) : Change s t out := by
  cases worker with
  | locking =>
    simp only [workStep] at h
    split at h
    · rename_i hempty
      cases hflag : s.shouldTerminate with
      | true =>
        rw [hflag] at h
        cases h
        exact .exit thread hat hempty hflag
      | false =>
        rw [hflag] at h
        cases h
        exact .wait thread hat hempty hflag
    · cases h
  | waiting => cases h
  | holding item =>
    cases h
    exact .start thread item hat
  | executing item =>
    cases h
    exact .finish thread item hat
  | exited => cases h

theorem step_change (h : s.step move = some (t, out)) : Change s t out := by
  cases move with
  | execute work priority =>
    cases work with
    | some work =>
      cases h
      exact .call _
    | none =>
      cases h
      exact .call _
  | call index woken =>
    obtain ⟨call, _, hcall⟩ := Option.bind_eq_some_iff.mp h
    exact executeStep_change hcall
  | terminate =>
    simp only [step] at h
    split at h
    · rename_i huncalled
      cases h
      exact .ask huncalled
    · cases h
  | terminating => exact terminateStep_change h
  | pop thread top => exact popStep_change h
  | work thread =>
    obtain ⟨worker, hworker, hwork⟩ := Option.bind_eq_some_iff.mp h
    exact workStep_change hworker hwork
  | wake thread =>
    obtain ⟨next, hnext, heq⟩ := Option.map_eq_some_iff.mp h
    cases heq
    exact notifyOne_change t.executes hnext

end Change

/-- The item that a worker has taken and not started. -/
def WorkerAt.holds (item : SWorkItem W) : WorkerAt W → Nat
  | .holding held => if held = item then 1 else 0
  | _ => 0

/-- The item that a worker is executing. -/
def WorkerAt.executes (item : SWorkItem W) : WorkerAt W → Nat
  | .executing held => if held = item then 1 else 0
  | _ => 0

/-- What has become of each item: it is queued, held, executing or finished. -/
structure Books (os : List (Seen W)) (s : CThreadPool W) : Prop where
  queue : ∀ item, os.count (.queued item) =
    s.workQueue.count item + tally (WorkerAt.holds item) s.threads + os.count (.started item)
  work : ∀ item, os.count (.started item) =
    tally (WorkerAt.executes item) s.threads + os.count (.finished item)
  once : ∀ item, os.count (.queued item) ≤ 1
  number : ∀ item, .queued item ∈ os → item.number < s.queued

/-- Where Terminate is and what the workers may do then. -/
structure Phases (numThreads : Nat) (s : CThreadPool W) : Prop where
  flag : s.shouldTerminate = true ↔ s.terminating ≠ .uncalled ∧ s.terminating ≠ .locking
  exited : .exited ∈ s.threads → s.shouldTerminate = true
  awake : ∀ thread, s.terminating = .joining thread → .waiting ∉ s.threads
  joined : ∀ thread, s.terminating = .joining thread →
    thread ≤ s.threads.length ∧ ∀ k < thread, s.threads[k]? = some .exited
  returned : s.terminating = .returned → s.threads = []
  length : s.terminating ≠ .returned → s.threads.length = numThreads

/-- The queued items carry their numbers as sequence, modulo 2^64. -/
structure Numbered (s : CThreadPool W) : Prop where
  next : s.nextSequence = UInt64.ofNat s.queued
  queue : ∀ item ∈ s.workQueue, item.sequence = UInt64.ofNat item.number ∧ item.number < s.queued

section Books
variable {s t : CThreadPool W} {out : Seen W} {os : List (Seen W)} {n : Nat}

/-- A step that queues, starts and finishes nothing and leaves the items where they are. -/
theorem Books.quiet (h : Books os s) (hqueue : t.workQueue = s.workQueue) (hqueued : t.queued = s.queued)
    (hholds : ∀ item, tally (WorkerAt.holds item) t.threads = tally (WorkerAt.holds item) s.threads)
    (hexecutes : ∀ item, tally (WorkerAt.executes item) t.threads = tally (WorkerAt.executes item) s.threads) :
    Books (os ++ [.nothing]) t where
  queue item := by simpa [hqueue, hholds] using h.queue item
  work item := by simpa [hexecutes] using h.work item
  once item := by simpa using h.once item
  number item hitem := by
    rw [hqueued]
    exact h.number item (by simpa using hitem)

theorem woken_holds (item : SWorkItem W) (threads : List (WorkerAt W)) :
    tally (WorkerAt.holds item) (threads.map WorkerAt.woken) = tally (WorkerAt.holds item) threads := by
  rw [tally_map]
  congr 1
  funext worker
  cases worker <;> rfl

theorem woken_executes (item : SWorkItem W) (threads : List (WorkerAt W)) :
    tally (WorkerAt.executes item) (threads.map WorkerAt.woken) = tally (WorkerAt.executes item) threads := by
  rw [tally_map]
  congr 1
  funext worker
  cases worker <;> rfl

omit [DecidableEq W] in
theorem Phases.all_exited (h : s.Phases n) {thread : Nat} (hat : s.terminating = .joining thread)
    (hall : s.threads[thread]? = none) : ∀ worker ∈ s.threads, worker = .exited := by
  intro worker hworker
  obtain ⟨k, hk, rfl⟩ := List.getElem_of_mem hworker
  have hlt : k < thread := Nat.lt_of_lt_of_le hk (List.getElem?_eq_none_iff.mp hall)
  have hexited := (h.joined thread hat).2 k hlt
  rw [List.getElem?_eq_getElem hk] at hexited
  exact Option.some.inj hexited

/-- One worker goes on: what it holds comes from the queue and is then started, and what it
executes is what it started and then finished. -/
theorem Books.worker (h : Books os s) {thread : Nat} {worker worker' : WorkerAt W}
    (hat : s.threads[thread]? = some worker) (hthreads : t.threads = s.threads.set thread worker')
    (hqueued : t.queued = s.queued) (hout : ∀ item, [out].count (.queued item) = 0)
    (hholds : ∀ item, t.workQueue.count item + worker'.holds item + [out].count (.started item) =
      s.workQueue.count item + worker.holds item)
    (hexecutes : ∀ item, worker'.executes item + [out].count (.finished item) =
      worker.executes item + [out].count (.started item)) : Books (os ++ [out]) t where
  queue item := by
    have hold := h.queue item
    have hmoved := hholds item
    have htally := tally_set (f := WorkerAt.holds item) (b := worker') hat
    rw [List.count_append, List.count_append, hthreads, hout]
    omega
  work item := by
    have hold := h.work item
    have hmoved := hexecutes item
    have htally := tally_set (f := WorkerAt.executes item) (b := worker') hat
    rw [List.count_append, List.count_append, hthreads]
    omega
  once item := by
    rw [List.count_append, hout]
    exact h.once item
  number item hitem := by
    rw [hqueued]
    apply h.number item
    rcases List.mem_append.mp hitem with hold | hthis
    · exact hold
    · exact absurd hthis (List.count_eq_zero.mp (hout item))

theorem Books.push (h : Books os s) (executes : List (ExecuteAt W)) {item : SWorkItem W}
    (hnumber : item.number = s.queued) : Books (os ++ [.queued item])
      { s with
        executes
        workQueue := s.workQueue ++ [item]
        nextSequence := s.nextSequence + 1
        queued := s.queued + 1 } where
  queue other := by
    have hold := h.queue other
    simp only [List.count_append, List.count_singleton, beq_iff_eq, Seen.queued.injEq, reduceCtorEq, if_false]
    omega
  work other := by simpa using h.work other
  once other := by
    have hold := h.once other
    simp only [List.count_append, List.count_singleton, beq_iff_eq, Seen.queued.injEq]
    split
    · rename_i heq
      subst heq
      have hnew : .queued item ∉ os := fun hmem => by
        have := h.number item hmem
        omega
      rw [List.count_eq_zero_of_not_mem hnew]
    · exact hold
  number other hother := by
    rcases List.mem_append.mp hother with hold | hthis
    · exact Nat.lt_succ_of_lt (h.number other hold)
    · obtain rfl : other = item := by simpa using hthis
      exact hnumber ▸ Nat.lt_succ_self _

theorem Books.change (h : Books os s) (hphases : s.Phases n) (hc : Change s t out) :
    Books (os ++ [out]) t := by
  cases hc with
  | call executes => exact h.quiet rfl rfl (fun _ => rfl) (fun _ => rfl)
  | queue executes item _ hnumber => exact h.push executes hnumber
  | wake executes thread hat =>
    exact h.worker hat rfl rfl (fun _ => rfl) (fun _ => rfl) (fun _ => rfl)
  | wait thread hat _ _ =>
    exact h.worker hat rfl rfl (fun _ => rfl) (fun _ => rfl) (fun _ => rfl)
  | exit thread hat _ _ =>
    exact h.worker hat rfl rfl (fun _ => rfl) (fun _ => rfl) (fun _ => rfl)
  | pop thread top item hat hitem _ =>
    refine h.worker hat rfl rfl (fun _ => rfl) (fun other => ?_) (fun _ => rfl)
    exact count_eraseIdx hitem
  | start thread item hat =>
    refine h.worker hat rfl rfl (fun _ => rfl) (fun other => ?_) (fun other => ?_)
    · simp [WorkerAt.holds, List.count_singleton, setThread]
    · simp [WorkerAt.executes, List.count_singleton]
  | finish thread item hat =>
    refine h.worker hat rfl rfl (fun _ => rfl) (fun other => rfl) (fun other => ?_)
    simp [WorkerAt.executes, List.count_singleton]
  | ask _ => exact h.quiet rfl rfl (fun _ => rfl) (fun _ => rfl)
  | flag _ => exact h.quiet rfl rfl (fun _ => rfl) (fun _ => rfl)
  | wakeAll _ => exact h.quiet rfl rfl (fun _ => woken_holds _ _) (fun _ => woken_executes _ _)
  | join thread _ _ => exact h.quiet rfl rfl (fun _ => rfl) (fun _ => rfl)
  | clear thread hat hall =>
    have hexited := hphases.all_exited hat hall
    refine h.quiet rfl rfl (fun item => ?_) (fun item => ?_)
    · exact (tally_eq_zero.mpr fun worker hworker => by rw [hexited worker hworker]; rfl).symm
    · exact (tally_eq_zero.mpr fun worker hworker => by rw [hexited worker hworker]; rfl).symm

end Books

section Phases
variable {s t : CThreadPool W} {out : Seen W} {os : List (Seen W)} {n : Nat}

omit [DecidableEq W] in
theorem Phases.quiet (h : s.Phases n) (hthreads : t.threads = s.threads)
    (hflag : t.shouldTerminate = s.shouldTerminate) (hat : t.terminating = s.terminating) : t.Phases n where
  flag := by
    rw [hflag, hat]
    exact h.flag
  exited := by
    rw [hflag, hthreads]
    exact h.exited
  awake := by
    rw [hat, hthreads]
    exact h.awake
  joined := by
    rw [hat, hthreads]
    exact h.joined
  returned := by
    rw [hat, hthreads]
    exact h.returned
  length := by
    rw [hat, hthreads]
    exact h.length

omit [DecidableEq W] in
/-- A worker that goes on has not left its loop. It leaves it only after the flag is set,
and blocks only before. -/
theorem Phases.worker (h : s.Phases n) {thread : Nat} {worker worker' : WorkerAt W}
    (hat : s.threads[thread]? = some worker) (hlive : worker ≠ .exited)
    (hleaves : worker' = .exited → s.shouldTerminate = true)
    (hblocks : worker' = .waiting → s.shouldTerminate = false)
    (hthreads : t.threads = s.threads.set thread worker') (hflag : t.shouldTerminate = s.shouldTerminate)
    (hsame : t.terminating = s.terminating) : t.Phases n where
  flag := by
    rw [hflag, hsame]
    exact h.flag
  exited hmem := by
    rw [hflag]
    rw [hthreads] at hmem
    rcases List.mem_or_eq_of_mem_set hmem with hold | hnew
    · exact h.exited hold
    · exact hleaves hnew.symm
  awake k hk hmem := by
    rw [hsame] at hk
    rw [hthreads] at hmem
    rcases List.mem_or_eq_of_mem_set hmem with hold | hnew
    · exact h.awake k hk hold
    · have hset : s.shouldTerminate = true := h.flag.mpr (by simp [hk])
      rw [hblocks hnew.symm] at hset
      cases hset
  joined k hk := by
    rw [hsame] at hk
    obtain ⟨hle, hexited⟩ := h.joined k hk
    rw [hthreads, List.length_set]
    refine ⟨hle, fun j hj => ?_⟩
    have hne : thread ≠ j := by
      rintro rfl
      exact hlive (Option.some.inj (hat.symm.trans (hexited thread hj)))
    rw [List.getElem?_set_ne hne]
    exact hexited j hj
  returned hreturned := by
    rw [hsame] at hreturned
    rw [h.returned hreturned] at hat
    cases hat
  length hreturned := by
    rw [hsame] at hreturned
    rw [hthreads, List.length_set]
    exact h.length hreturned

omit [DecidableEq W] in
theorem Phases.change (h : s.Phases n) (hc : Change s t out) : t.Phases n := by
  cases hc with
  | call executes => exact h.quiet rfl rfl rfl
  | queue executes item _ _ => exact h.quiet rfl rfl rfl
  | wake executes thread hat => exact h.worker hat (by simp) (by simp) (by simp) rfl rfl rfl
  | wait thread hat _ hflag => exact h.worker hat (by simp) (by simp) (fun _ => hflag) rfl rfl rfl
  | exit thread hat _ hflag => exact h.worker hat (by simp) (fun _ => hflag) (by simp) rfl rfl rfl
  | pop thread top item hat _ _ => exact h.worker hat (by simp) (by simp) (by simp) rfl rfl rfl
  | start thread item hat => exact h.worker hat (by simp) (by simp) (by simp) rfl rfl rfl
  | finish thread item hat => exact h.worker hat (by simp) (by simp) (by simp) rfl rfl rfl
  | ask hat =>
    have hflag : s.shouldTerminate ≠ true := fun hset => (h.flag.mp hset).1 hat
    exact ⟨by simpa using hflag, h.exited, by simp, by simp, by simp,
      fun _ => h.length (by simp [hat])⟩
  | flag hat =>
    exact ⟨by simp, fun _ => rfl, by simp, by simp, by simp, fun _ => h.length (by simp [hat])⟩
  | wakeAll hat =>
    have hset : s.shouldTerminate = true := h.flag.mpr (by simp [hat])
    refine ⟨by simp [hset], fun _ => hset, ?_, ?_, by simp, fun _ => ?_⟩
    · intro thread _ hmem
      obtain ⟨worker, _, hwoken⟩ := List.mem_map.mp hmem
      cases worker <;> cases hwoken
    · rintro thread hthread
      obtain rfl : 0 = thread := by simpa using hthread
      exact ⟨Nat.zero_le _, fun k hk => absurd hk (Nat.not_lt_zero k)⟩
    · rw [List.length_map]
      exact h.length (by simp [hat])
  | join thread hat hexited =>
    have hset : s.shouldTerminate = true := h.flag.mpr (by simp [hat])
    refine ⟨by simp [hset], fun _ => hset, fun _ _ => h.awake thread hat, ?_, by simp,
      fun _ => h.length (by simp [hat])⟩
    rintro next hnext
    obtain rfl : thread + 1 = next := by simpa using hnext
    refine ⟨(List.getElem?_eq_some_iff.mp hexited).1, fun k hk => ?_⟩
    rcases Nat.lt_succ_iff_lt_or_eq.mp hk with hlt | rfl
    · exact (h.joined thread hat).2 k hlt
    · exact hexited
  | clear thread hat _ =>
    have hset : s.shouldTerminate = true := h.flag.mpr (by simp [hat])
    exact ⟨by simp [hset], by simp, by simp, by simp, fun _ => rfl, by simp⟩

omit [DecidableEq W] in
theorem Numbered.same (h : s.Numbered) (hqueue : ∀ item ∈ t.workQueue, item ∈ s.workQueue)
    (hnext : t.nextSequence = s.nextSequence) (hqueued : t.queued = s.queued) : t.Numbered where
  next := by
    rw [hnext, hqueued]
    exact h.next
  queue item hitem := by
    rw [hqueued]
    exact h.queue item (hqueue item hitem)

omit [DecidableEq W] in
theorem Numbered.change (h : s.Numbered) (hc : Change s t out) : t.Numbered := by
  cases hc with
  | queue executes item hsequence hnumber =>
    refine ⟨?_, fun other hother => ?_⟩
    · simp [h.next, UInt64.ofNat_add]
    · rcases List.mem_append.mp hother with hold | hnew
      · exact ⟨(h.queue other hold).1, Nat.lt_succ_of_lt (h.queue other hold).2⟩
      · obtain rfl : other = item := by simpa using hnew
        rw [hsequence, hnumber]
        exact ⟨h.next, Nat.lt_succ_self _⟩
  | pop thread top item _ _ _ => exact h.same (fun _ => List.mem_of_mem_eraseIdx) rfl rfl
  | call executes => exact h.same (fun _ => id) rfl rfl
  | wake executes thread _ => exact h.same (fun _ => id) rfl rfl
  | wait thread _ _ _ => exact h.same (fun _ => id) rfl rfl
  | exit thread _ _ _ => exact h.same (fun _ => id) rfl rfl
  | start thread item _ => exact h.same (fun _ => id) rfl rfl
  | finish thread item _ => exact h.same (fun _ => id) rfl rfl
  | ask _ => exact h.same (fun _ => id) rfl rfl
  | flag _ => exact h.same (fun _ => id) rfl rfl
  | wakeAll _ => exact h.same (fun _ => id) rfl rfl
  | join thread _ _ => exact h.same (fun _ => id) rfl rfl
  | clear thread _ _ => exact h.same (fun _ => id) rfl rfl

end Phases

/-- What holds in every state that a pool reaches. -/
structure Sound (numThreads : Nat) (os : List (Seen W)) (s : CThreadPool W) : Prop where
  books : s.Books os
  phases : s.Phases numThreads
  numbered : s.Numbered

section Runs
variable {s t : CThreadPool W} {os os' : List (Seen W)} {is : List (Move W)} {move : Move W} {out : Seen W} {n : Nat}

theorem Sound.create (numThreads : Nat) : (create numThreads : CThreadPool W).Sound numThreads [] where
  books := by
    refine ⟨fun item => ?_, fun item => ?_, by simp, by simp⟩
    · simp [CThreadPool.create, WorkerAt.holds]
    · simp [CThreadPool.create, WorkerAt.executes]
  phases := by
    refine ⟨by simp [CThreadPool.create], fun hmem => ?_, by simp [CThreadPool.create], by simp [CThreadPool.create],
      by simp [CThreadPool.create], fun _ => List.length_replicate⟩
    have := List.eq_of_mem_replicate hmem
    cases this
  numbered := ⟨rfl, by simp [CThreadPool.create]⟩

theorem Sound.step (h : s.Sound n os) (hst : s.step move = some (t, out)) : t.Sound n (os ++ [out]) :=
  have hc := step_change hst
  ⟨h.books.change h.phases hc, h.phases.change hc, h.numbered.change hc⟩

theorem Sound.run (h : s.Sound n os) (hr : (threadPool W).run s is = some (t, os')) : t.Sound n (os ++ os') :=
  Machine.run_invariant (fun _ os s => s.Sound n os) is os (fun _ _ _ _ _ _ hs hst => hs.step hst) h hr

end Runs

end CThreadPool

end TgeCore.Threading
