import Mathlib.Data.List.Count
import TgeCore.Threading.SerialSubmits

namespace TgeCore.Threading
open Library

section Statement
variable {I T : Type} [DecidableEq I]

/-- A submitted job is in exactly one place: pending, in flight, or done with its result
waiting for Poll or returned by one. Its work has been run once if it is done, and it was
not discarded. -/
structure CSerialJobQueue.Accounts (s : CSerialJobQueue I T) (os : List (SerialSeen I)) (job : Nat) :
    Prop where
  place : (s.pending.map SEntry.job).count job + (s.worker.inFlight.map SEntry.job).count job +
    s.completed.count job + os.count (.returned (some job)) = 1
  ran : os.count (.ran job) =
    s.worker.finished.count job + s.completed.count job + os.count (.returned (some job))
  kept : .discarded job ∉ os

/-- An id is not marked, or a pending job will use its mark up. -/
def CSerialJobQueue.Spares (s : CSerialJobQueue I T) (jobId : I) : Prop :=
  jobId ∉ s.cancelled ∨ ∃ e ∈ s.pending, e.jobId = jobId

end Statement

variable {I : Type} {entry x : SEntry I} {doomed marked marked' : Prop} {l rest : List (SEntry I)}

/-- Whether the mark of an entry's id is there when the worker comes to the entry: the
first entry of that id uses it up. -/
def Meets (entry : SEntry I) (doomed marked : Prop) : List (SEntry I) → Prop
  | [] => True
  | x :: rest => (x.job = entry.job → x.jobId = entry.jobId ∧ (marked ↔ doomed)) ∧
      Meets entry doomed (marked ∧ x.jobId ≠ entry.jobId) rest

theorem Meets.congr (h : Meets entry doomed marked l) (hiff : marked ↔ marked') :
    Meets entry doomed marked' l := propext hiff ▸ h

theorem Meets.jobId (h : Meets entry doomed marked l) (hx : x ∈ l) (hjob : x.job = entry.job) :
    x.jobId = entry.jobId := by
  induction l generalizing marked with
  | nil => cases hx
  | cons y rest ih =>
    cases List.mem_cons.mp hx with
    | inl hfirst =>
      subst hfirst
      exact (h.1 hjob).1
    | inr hlater => exact ih h.2 hlater

/-- Other jobs may be submitted behind it. -/
theorem Meets.concat (h : Meets entry doomed marked l) (hother : x.job ≠ entry.job) :
    Meets entry doomed marked (l ++ [x]) := by
  induction l generalizing marked with
  | nil => exact ⟨fun hjob => absurd hjob hother, trivial⟩
  | cons y rest ih => exact ⟨h.1, ih h.2⟩

/-- The jobs of another id may be taken out. -/
theorem Meets.filter [DecidableEq I] {jobId : I} (h : Meets entry doomed marked l)
    (hother : entry.jobId ≠ jobId) : Meets entry doomed marked (l.filter fun e => e.jobId ≠ jobId) := by
  induction l generalizing marked with
  | nil => trivial
  | cons y rest ih =>
    by_cases hy : y.jobId = jobId
    · rw [List.filter_cons_of_neg (by simpa using hy)]
      refine (ih h.2).congr ⟨And.left, fun hmarked => ⟨hmarked, ?_⟩⟩
      exact fun hsame => hother (hsame ▸ hy)
    · rw [List.filter_cons_of_pos (by simpa using hy)]
      exact ⟨h.1, ih h.2⟩

/-- The entry itself is submitted behind jobs none of which is it. -/
theorem Meets.submit (hnew : ∀ e ∈ l, e.job ≠ entry.job) :
    Meets entry (marked ∧ ∀ e ∈ l, e.jobId ≠ entry.jobId) marked (l ++ [entry]) := by
  induction l generalizing marked with
  | nil => exact ⟨fun _ => ⟨rfl, by simp⟩, trivial⟩
  | cons y rest ih =>
    refine ⟨fun hjob => absurd hjob (hnew y (by simp)), ?_⟩
    have hrest : Meets entry ((marked ∧ y.jobId ≠ entry.jobId) ∧ ∀ e ∈ rest, e.jobId ≠ entry.jobId)
        (marked ∧ y.jobId ≠ entry.jobId) (rest ++ [entry]) :=
      ih fun e he => hnew e (by simp [he])
    have hiff : ((marked ∧ y.jobId ≠ entry.jobId) ∧ ∀ e ∈ rest, e.jobId ≠ entry.jobId) ↔
        marked ∧ ∀ e ∈ y :: rest, e.jobId ≠ entry.jobId := by
      simp [and_assoc]
    exact propext hiff ▸ hrest

theorem count_filter [DecidableEq I] {jobId : I} (h : Meets entry doomed marked l)
    (hother : entry.jobId ≠ jobId) :
    ((l.filter fun e => e.jobId ≠ jobId).map SEntry.job).count entry.job =
      (l.map SEntry.job).count entry.job := by
  induction l generalizing marked with
  | nil => rfl
  | cons y rest ih =>
    have hrest := ih h.2
    by_cases hy : y.jobId = jobId
    · have hjob : y.job ≠ entry.job := fun hjob => hother ((h.1 hjob).1 ▸ hy)
      rw [List.filter_cons_of_neg (by simpa using hy), hrest, List.map_cons, List.count_cons_of_ne hjob]
    · rw [List.filter_cons_of_pos (by simpa using hy), List.map_cons, List.map_cons, List.count_cons,
        List.count_cons, hrest]

/-- What the queue knows of a job since it was submitted. -/
structure SerialBooks.Tracks [DecidableEq I] (b : SerialBooks I) (entry : SEntry I) (doomed : Prop)
    (os : List (SerialSeen I)) : Prop where
  old : entry.job < b.nextJob
  place : (b.pending.map SEntry.job).count entry.job + (b.inFlight.map SEntry.job).count entry.job +
    b.completed.count entry.job + os.count (.returned (some entry.job)) +
    os.count (.discarded entry.job) = 1
  ran : os.count (.ran entry.job) =
    b.finished.count entry.job + b.completed.count entry.job + os.count (.returned (some entry.job))
  spared : ¬ doomed → os.count (.discarded entry.job) = 0
  lost : doomed → (b.inFlight.map SEntry.job).count entry.job + b.completed.count entry.job +
    os.count (.returned (some entry.job)) = 0
  meets : Meets entry doomed (entry.jobId ∈ b.cancelled) b.pending

section Steps
variable [DecidableEq I] {b b' : SerialBooks I} {os : List (SerialSeen I)} {out : SerialSeen I}

theorem SerialBooks.Tracks.discard (h : b.Tracks entry doomed os) (hpending : b.pending = x :: rest)
    (hmarked : x.jobId ∈ b.cancelled) :
    SerialBooks.Tracks { b with pending := rest, cancelled := b.cancelled.erase x.jobId } entry doomed
      (os ++ [.discarded x.job]) := by
  obtain ⟨hold, hplace, hran, hspared, hlost, hmeets⟩ := h
  rw [hpending] at hplace hmeets
  obtain ⟨hhead, hrest⟩ := hmeets
  have hleft : entry.jobId ∈ b.cancelled ∧ x.jobId ≠ entry.jobId ↔ entry.jobId ∈ b.cancelled.erase x.jobId := by
    rw [Finset.mem_erase, and_comm, ne_comm]
  refine ⟨hold, ?_, by simpa using hran, ?_, by simpa using hlost, hrest.congr hleft⟩
  · rw [List.map_cons, List.count_cons] at hplace
    by_cases hjob : x.job = entry.job
    · simp [hjob] at hplace ⊢
      omega
    · simpa [hjob] using hplace
  · intro hdoomed
    have hother : x.job ≠ entry.job := fun hjob => hdoomed ((hhead hjob).2.mp ((hhead hjob).1 ▸ hmarked))
    simpa [hother] using hspared hdoomed

theorem SerialBooks.Tracks.take (h : b.Tracks entry doomed os) (hpending : b.pending = x :: rest)
    (hmarked : x.jobId ∉ b.cancelled) (hnone : b.inFlight = []) :
    SerialBooks.Tracks { b with pending := rest, inFlight := [x] } entry doomed (os ++ [.nothing]) := by
  obtain ⟨hold, hplace, hran, hspared, hlost, hmeets⟩ := h
  rw [hpending] at hplace hmeets
  rw [hnone] at hplace hlost
  obtain ⟨hhead, hrest⟩ := hmeets
  have hleft : entry.jobId ∈ b.cancelled ∧ x.jobId ≠ entry.jobId ↔ entry.jobId ∈ b.cancelled :=
    ⟨And.left, fun hmember => ⟨hmember, fun hsame => hmarked (hsame ▸ hmember)⟩⟩
  refine ⟨hold, ?_, by simpa using hran, by simpa using hspared, ?_, hrest.congr hleft⟩
  · rw [List.map_cons, List.count_cons] at hplace
    by_cases hjob : x.job = entry.job
    · simp [hjob] at hplace ⊢
      omega
    · simpa [hjob] using hplace
  · intro hdoomed
    have hother : x.job ≠ entry.job := fun hjob =>
      hmarked ((hhead hjob).1 ▸ (hhead hjob).2.mpr hdoomed)
    simpa [hother] using hlost hdoomed

theorem SerialBooks.Tracks.run (h : b.Tracks entry doomed os) (hnone : b.finished = []) :
    SerialBooks.Tracks { b with finished := [x.job] } entry doomed (os ++ [.ran x.job]) := by
  obtain ⟨hold, hplace, hran, hspared, hlost, hmeets⟩ := h
  rw [hnone] at hran
  refine ⟨hold, by simpa using hplace, ?_, by simpa using hspared, by simpa using hlost, hmeets⟩
  by_cases hjob : x.job = entry.job
  · simp [hjob] at hran ⊢
    omega
  · simpa [hjob] using hran

theorem SerialBooks.Tracks.push (h : b.Tracks entry doomed os) (hflight : b.inFlight = [x])
    (hfinished : b.finished = [x.job]) :
    SerialBooks.Tracks { b with inFlight := [], finished := [], completed := b.completed ++ [x.job] } entry doomed
      (os ++ [.pushed x.job]) := by
  obtain ⟨hold, hplace, hran, hspared, hlost, hmeets⟩ := h
  rw [hflight] at hplace hlost
  rw [hfinished] at hran
  refine ⟨hold, ?_, ?_, by simpa using hspared, ?_, hmeets⟩
  · by_cases hjob : x.job = entry.job
    · simp [hjob] at hplace ⊢
      omega
    · simpa [hjob] using hplace
  · by_cases hjob : x.job = entry.job
    · simp [hjob] at hran ⊢
      omega
    · simpa [hjob] using hran
  · intro hdoomed
    have hnone := hlost hdoomed
    by_cases hjob : x.job = entry.job
    · simp [hjob] at hnone
    · simpa [hjob] using hnone

theorem SerialBooks.Tracks.poll (h : b.Tracks entry doomed os) :
    SerialBooks.Tracks { b with completed := b.completed.tail } entry doomed
      (os ++ [.returned b.completed.head?]) := by
  obtain ⟨hold, hplace, hran, hspared, hlost, hmeets⟩ := h
  cases hcompleted : b.completed with
  | nil =>
    rw [hcompleted] at hplace hran hlost
    exact ⟨hold, by simpa using hplace, by simpa using hran, by simpa using hspared, by simpa using hlost, hmeets⟩
  | cons job later =>
    rw [hcompleted] at hplace hran hlost
    refine ⟨hold, ?_, ?_, by simpa using hspared, ?_, hmeets⟩
    · by_cases hjob : job = entry.job
      · simp [hjob] at hplace ⊢
        omega
      · simpa [hjob] using hplace
    · by_cases hjob : job = entry.job
      · simp [hjob] at hran ⊢
        omega
      · simpa [hjob] using hran
    · intro hdoomed
      have hnone := hlost hdoomed
      by_cases hjob : job = entry.job
      · simp [hjob] at hnone
      · simpa [hjob] using hnone

/-- A step that is no Cancel of the job's id and no Flush keeps what is known of it. -/
theorem SerialBooks.Tracks.step (h : b.Tracks entry doomed os) (hst : b.Step out b')
    (hcancel : out ≠ .cancelled entry.jobId) (hflush : out ≠ .flushed) :
    b'.Tracks entry doomed (os ++ [out]) := by
  cases hst with
  | discard hpending hmarked => exact h.discard hpending hmarked
  | take hpending hmarked hnone => exact h.take hpending hmarked hnone
  | run x _ hnone => exact h.run hnone
  | push x hflight hfinished => exact h.push hflight hfinished
  | poll => exact h.poll
  | quiet =>
    obtain ⟨hold, hplace, hran, hspared, hlost, hmeets⟩ := h
    exact ⟨hold, by simpa using hplace, by simpa using hran, by simpa using hspared,
      by simpa using hlost, hmeets⟩
  | submit jobId =>
    obtain ⟨hold, hplace, hran, hspared, hlost, hmeets⟩ := h
    have hother : b.nextJob ≠ entry.job := Nat.ne_of_gt hold
    exact ⟨Nat.lt_succ_of_lt hold, by simpa [hother] using hplace, by simpa using hran,
      by simpa using hspared, by simpa using hlost, hmeets.concat hother⟩
  | @remove jobId hpending =>
    obtain ⟨hold, hplace, hran, hspared, hlost, hmeets⟩ := h
    have hother : entry.jobId ≠ jobId := fun hsame => hcancel (by rw [hsame])
    refine ⟨hold, ?_, by simpa using hran, by simpa using hspared, by simpa using hlost, hmeets.filter hother⟩
    rw [count_filter hmeets hother]
    simpa using hplace
  | @mark jobId hpending =>
    obtain ⟨hold, hplace, hran, hspared, hlost, hmeets⟩ := h
    have hother : entry.jobId ≠ jobId := fun hsame => hcancel (by rw [hsame])
    have hleft : entry.jobId ∈ b.cancelled ↔ entry.jobId ∈ insert jobId b.cancelled := by
      simp [hother]
    exact ⟨hold, by simpa using hplace, by simpa using hran, by simpa using hspared,
      by simpa using hlost, hmeets.congr hleft⟩
  | flush => exact absurd rfl hflush

/-- No job has the number of the next one. -/
structure SerialBooks.Below (b : SerialBooks I) : Prop where
  pending : ∀ e ∈ b.pending, e.job < b.nextJob
  inFlight : ∀ e ∈ b.inFlight, e.job < b.nextJob
  finished : ∀ job ∈ b.finished, job < b.nextJob
  completed : ∀ job ∈ b.completed, job < b.nextJob

theorem SerialBooks.Below.step (h : b.Below) (hst : b.Step out b') : b'.Below := by
  obtain ⟨hpending, hflight, hfinished, hcompleted⟩ := h
  cases hst with
  | quiet => exact ⟨hpending, hflight, hfinished, hcompleted⟩
  | submit jobId =>
    refine ⟨?_, fun e he => Nat.lt_succ_of_lt (hflight e he),
      fun job hjob => Nat.lt_succ_of_lt (hfinished job hjob),
      fun job hjob => Nat.lt_succ_of_lt (hcompleted job hjob)⟩
    intro e he
    cases List.mem_append.mp he with
    | inl hbefore => exact Nat.lt_succ_of_lt (hpending e hbefore)
    | inr hnew =>
      cases List.mem_singleton.mp hnew
      exact Nat.lt_succ_self b.nextJob
  | discard hfront _ =>
    exact ⟨fun e he => hpending e (by simp [hfront, he]), hflight, hfinished, hcompleted⟩
  | take hfront _ _ =>
    refine ⟨fun e he => hpending e (by simp [hfront, he]), ?_, hfinished, hcompleted⟩
    intro e he
    cases List.mem_singleton.mp he
    exact hpending _ (by simp [hfront])
  | run x htaken _ =>
    refine ⟨hpending, hflight, ?_, hcompleted⟩
    intro job hjob
    cases List.mem_singleton.mp hjob
    exact hflight x (by simp [htaken])
  | push x htaken _ =>
    refine ⟨hpending, List.forall_mem_nil _, List.forall_mem_nil _, ?_⟩
    intro job hjob
    cases List.mem_append.mp hjob with
    | inl hbefore => exact hcompleted job hbefore
    | inr hnew =>
      cases List.mem_singleton.mp hnew
      exact hflight x (by simp [htaken])
  | poll =>
    exact ⟨hpending, hflight, hfinished, fun job hjob => hcompleted job (List.mem_of_mem_tail hjob)⟩
  | remove _ => exact ⟨fun e he => hpending e (List.mem_of_mem_filter he), hflight, hfinished, hcompleted⟩
  | mark _ => exact ⟨hpending, hflight, hfinished, hcompleted⟩
  | flush _ => exact ⟨List.forall_mem_nil _, hflight, hfinished, List.forall_mem_nil _⟩

/-- A job that was just submitted is the last one pending, and nowhere else. Its fate is
the mark of its id, if no pending job uses that up. -/
theorem SerialBooks.Below.submitted (h : b.Below) (hst : b.Step (.submitted entry) b') :
    b'.Tracks entry (entry.jobId ∈ b.cancelled ∧ ∀ e ∈ b.pending, e.jobId ≠ entry.jobId) [] := by
  cases hst with
  | submit jobId =>
    have hnew : ∀ e ∈ b.pending, e.job ≠ b.nextJob := fun e he => Nat.ne_of_lt (h.pending e he)
    have hpending : (b.pending.map SEntry.job).count b.nextJob = 0 := by
      rw [List.count_eq_zero, List.mem_map]
      intro hmem
      obtain ⟨e, he, hjob⟩ := hmem
      exact hnew e he hjob
    have hflight : (b.inFlight.map SEntry.job).count b.nextJob = 0 := by
      rw [List.count_eq_zero, List.mem_map]
      intro hmem
      obtain ⟨e, he, hjob⟩ := hmem
      exact Nat.ne_of_lt (h.inFlight e he) hjob
    have hfinished : b.finished.count b.nextJob = 0 := by
      rw [List.count_eq_zero]
      exact fun hjob => Nat.lt_irrefl _ (h.finished _ hjob)
    have hcompleted : b.completed.count b.nextJob = 0 := by
      rw [List.count_eq_zero]
      exact fun hjob => Nat.lt_irrefl _ (h.completed _ hjob)
    refine ⟨Nat.lt_succ_self b.nextJob, ?_, ?_, fun _ => rfl, ?_, Meets.submit hnew⟩
    · simp [hpending, hflight, hcompleted]
    · simp [hfinished, hcompleted]
    · simp [hflight, hcompleted]

end Steps

section Runs
variable {T : Type} [DecidableEq I] [DecidableEq T] {s s' u : CSerialJobQueue I T}
  {os os' : List (SerialSeen I)}

theorem below_run {is : List (SerialMove I T)} (hr : (serialJobQueue I T).run {} is = some (s, os)) :
    s.books.Below := by
  refine run_books (fun _ b => b.Below) (fun _ _ _ _ h hst => h.step hst) [] .init ?_ hr
  exact ⟨List.forall_mem_nil _, List.forall_mem_nil _, List.forall_mem_nil _, List.forall_mem_nil _⟩

/-- From its submission on, what the queue knows of a job stays true while no Cancel
names its id and nothing is flushed. -/
theorem tracks_run {is : List (SerialMove I T)} (hj : s.Joined) (h : s.books.Tracks entry doomed [])
    (hr : (serialJobQueue I T).run s is = some (u, os)) (hcancel : .cancelled entry.jobId ∉ os)
    (hflush : .flushed ∉ os) : u.books.Tracks entry doomed os := by
  refine run_books (fun os b => .cancelled entry.jobId ∉ os → .flushed ∉ os → b.Tracks entry doomed os) ?_ []
    hj (fun _ _ => h) hr hcancel hflush
  intro os b out b' h hst hcancel hflush
  rw [List.mem_append, not_or, List.mem_singleton] at hcancel hflush
  exact (h hcancel.1 hflush.1).step hst (Ne.symm hcancel.2) (Ne.symm hflush.2)

/-- A submitted job that no later Cancel names is never lost, if it was submitted when
its id was not marked or while a pending job would use the mark up. Otherwise it is never
run: all it does is wait for the worker to discard it. Every call of Submit past its push has
submitted its job. -/
theorem submitted_accounts_iff {is is' : List (SerialMove I T)} {m : SerialMove I T}
    (hr : (serialJobQueue I T).run {} is = some (s, os))
    (hst : (serialJobQueue I T).step s m = some (s', .submitted entry))
    (hr' : (serialJobQueue I T).run s' is' = some (u, os')) (hcancel : .cancelled entry.jobId ∉ os')
    (hflush : .flushed ∉ os') :
    (u.Accounts os' entry.job ↔ s.Spares entry.jobId ∨ entry.job ∈ u.pending.map SEntry.job) ∧
      u.Submits (is ++ m :: is') (os ++ .submitted entry :: os') := by
  have hwhole := Machine.run_append hr (Machine.run_cons_eq_some.mpr ⟨s', _, os', hst, hr', rfl⟩)
  refine ⟨?_, run_submits hwhole⟩
  have hj := CSerialJobQueue.Joined.run hr
  have htracks := tracks_run (hj.step hst) ((below_run hr).submitted (step_books hj hst)) hr' hcancel hflush
  obtain ⟨-, hplace, hran, hspared, hlost, -⟩ := htracks
  have hfate : s.Spares entry.jobId ↔
      ¬ (entry.jobId ∈ s.books.cancelled ∧ ∀ e ∈ s.books.pending, e.jobId ≠ entry.jobId) := by
    rw [not_and_or]
    push Not
    exact Iff.rfl
  simp only [CSerialJobQueue.books] at hplace hran hspared hlost hfate
  constructor
  · intro h
    by_cases hspare : s.Spares entry.jobId
    · exact .inl hspare
    · have hnone := hlost (not_not.mp fun hdoomed => hspare (hfate.mpr hdoomed))
      have hone := h.place
      exact .inr (List.count_pos_iff.mp (by omega))
  · intro h
    have hkept : os'.count (.discarded entry.job) = 0 := by
      cases h with
      | inl hspare => exact hspared (hfate.mp hspare)
      | inr hpending =>
        have hone := List.count_pos_iff.mpr hpending
        omega
    exact ⟨by omega, hran, List.count_eq_zero.mp hkept⟩

theorem mem_seen {out : SerialSeen I} {l : List (SerialSeen I)} (h : os.filter (· ≠ .nothing) = l)
    (hout : out ≠ .nothing) : out ∈ os ↔ out ∈ l := by
  rw [← h, List.mem_filter]
  simp [hout]

/-- A job is cancelled while the worker runs it, and two more of its id are submitted. -/
def submittedTwiceAfter : List (SerialMove String Unit) :=
  [.start, .owner, .owner, .owner, .owner, .submit () "load", .client (), .client (), .client (), .client (),
    .worker, .worker, .worker, .worker, .cancel () "load", .client (), .client (), .client (),
    .submit () "load", .client (), .client (), .client (), .client (), .submit () "load", .client ()]

def untilPolled : List (SerialMove String Unit) :=
  [.client (), .client (), .worker, .worker, .worker, .worker, .worker, .worker, .worker, .worker, .worker,
    .worker, .worker, .worker, .worker, .worker, .worker, .worker, .poll (), .client (), .client ()]

/-- The first of them uses the mark up, and the other one is run. -/
theorem submitted_accounts_iff_second : ∃ s os s' u os',
    (serialJobQueue String Unit).run {} submittedTwiceAfter = some (s, os) ∧
    (serialJobQueue String Unit).step s (.client ()) = some (s', .submitted ⟨"load", 2⟩) ∧
    (serialJobQueue String Unit).run s' untilPolled = some (u, os') ∧
    os'.filter (· ≠ .nothing) = [.ran 0, .pushed 0, .discarded 1, .ran 2, .pushed 2, .returned (some 0)] ∧
    (u.Accounts os' 2 ↔ s.Spares "load" ∨ 2 ∈ u.pending.map SEntry.job) ∧
    u.Submits (submittedTwiceAfter ++ .client () :: untilPolled) (os ++ .submitted ⟨"load", 2⟩ :: os') := by
  have hrun : (((serialJobQueue String Unit).run {} submittedTwiceAfter).bind fun r =>
      ((serialJobQueue String Unit).step r.1 (.client ())).bind fun next =>
        ((serialJobQueue String Unit).run next.1 untilPolled).map fun last =>
          (next.2, last.2.filter (· ≠ .nothing))) =
        some (.submitted ⟨"load", 2⟩,
          [.ran 0, .pushed 0, .discarded 1, .ran 2, .pushed 2, .returned (some 0)]) := by
    decide +kernel
  obtain ⟨⟨s, os⟩, hr, hnext⟩ := Option.bind_eq_some_iff.mp hrun
  obtain ⟨⟨s', out⟩, hst, hlast⟩ := Option.bind_eq_some_iff.mp hnext
  obtain ⟨⟨u, os'⟩, hr', hseen⟩ := Option.map_eq_some_iff.mp hlast
  obtain ⟨rfl, hos'⟩ := Prod.mk.inj hseen
  have hcancel : .cancelled "load" ∉ os' := (mem_seen hos' (by simp)).not.mpr (by simp)
  have hflush : .flushed ∉ os' := (mem_seen hos' (by simp)).not.mpr (by simp)
  exact ⟨s, os, s', u, os', hr, hst, hr', hos', submitted_accounts_iff hr hst hr' hcancel hflush⟩

/-- A job is cancelled before any of its id is there, and one is submitted after that. -/
def submittedAfter : List (SerialMove String Unit) :=
  [.start, .owner, .owner, .owner, .owner, .cancel () "load", .client (), .client (), .client (),
    .submit () "load", .client ()]

/-- The worker discards it by the mark that the Cancel has left. -/
theorem submitted_discarded : ∃ s os s' u os',
    (serialJobQueue String Unit).run {} submittedAfter = some (s, os) ∧
    (serialJobQueue String Unit).step s (.client ()) = some (s', .submitted ⟨"load", 0⟩) ∧
    (serialJobQueue String Unit).run s' [.client (), .client (), .worker, .worker, .worker] = some (u, os') ∧
    os'.filter (· ≠ .nothing) = [.discarded 0] ∧ ¬ u.Accounts os' 0 := by
  have hrun : (((serialJobQueue String Unit).run {} submittedAfter).bind fun r =>
      ((serialJobQueue String Unit).step r.1 (.client ())).bind fun next =>
        ((serialJobQueue String Unit).run next.1 [.client (), .client (), .worker, .worker, .worker]).map
          fun last => (next.2, last.2.filter (· ≠ .nothing))) =
        some (.submitted ⟨"load", 0⟩, [.discarded 0]) := by decide +kernel
  obtain ⟨⟨s, os⟩, hr, hnext⟩ := Option.bind_eq_some_iff.mp hrun
  obtain ⟨⟨s', out⟩, hst, hlast⟩ := Option.bind_eq_some_iff.mp hnext
  obtain ⟨⟨u, os'⟩, hr', hseen⟩ := Option.map_eq_some_iff.mp hlast
  obtain ⟨rfl, hos'⟩ := Prod.mk.inj hseen
  have hdiscarded : .discarded 0 ∈ os' := (mem_seen hos' (by simp)).mpr (by simp)
  exact ⟨s, os, s', u, os', hr, hst, hr', hos', fun h => h.kept hdiscarded⟩

end Runs

end TgeCore.Threading
