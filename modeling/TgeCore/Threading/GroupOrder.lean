import Mathlib.Data.List.Sort
import TgeCore.Threading.JobGroups

namespace TgeCore.Threading
open Library

section Statement
variable {G : Type} [DecidableEq G]

def JobSeen.pushes (group : G) : JobSeen G → List (Nat × EJobPriority)
  | .pushed g job priority => if g = group then [(job, priority)] else []
  | _ => []

/-- The jobs submitted to a group, in the order of submission. -/
def pushesOf (group : G) (os : List (JobSeen G)) : List (Nat × EJobPriority) :=
  os.flatMap (JobSeen.pushes group)

/-- Jobs in the order of priority, and of submission where that is the same. -/
def byPriority (jobs : List (Nat × EJobPriority)) : List Nat :=
  (jobs.insertionSort fun a b => a.2.value ≤ b.2.value).map Prod.fst

end Statement

variable {G : Type} [DecidableEq G] {parent : G → Option G} {s s' : CJobSystem G} {group : G}
  {os : List (JobSeen G)} {out : JobSeen G}

theorem pushesOf_concat (group : G) (os : List (JobSeen G)) (out : JobSeen G) :
    pushesOf group (os ++ [out]) = pushesOf group os ++ out.pushes group := by
  simp [pushesOf]

/-- The group's job that is popped and not checked yet. -/
def RunOneAt.unchecked (group : G) : RunOneAt G → List Nat
  | .popped g job => if g = group then [job] else []
  | .checking g job _ => if g = group then [job] else []
  | _ => []

def WorkerAt.unchecked (group : G) : WorkerAt G → List Nat
  | .runner _ run => run.unchecked group
  | _ => []

/-- A call of Wait in progress. -/
def JobCallAt.inWait : JobCallAt G → Bool
  | .waiting _ => true
  | .helping _ _ => true
  | .pausing _ => true
  | _ => false

def uncheckedAfter (group : G) : RunOneAt G ⊕ Bool → List Nat
  | .inl run => run.unchecked group
  | .inr _ => []

theorem check_order (parent : G → Option G) (s : CJobSystem G) (group g : G) (job : Nat) (ancestor : G) :
    ((s.check parent g job ancestor).2.jobs group .started ++
      (s.check parent g job ancestor).1.unchecked group).Sublist (if g = group then [job] else []) ∧
    (s.check parent g job ancestor).2.pushes group = [] := by
  unfold CJobSystem.check
  split
  · exact ⟨by simp [JobSeen.jobs, RunOneAt.unchecked], rfl⟩
  · split
    · refine ⟨?_, rfl⟩
      by_cases hg : g = group
      · simp [JobSeen.jobs, RunOneAt.unchecked, hg]
      · simp [JobSeen.jobs, RunOneAt.unchecked, hg]
    · exact ⟨List.Sublist.refl _, rfl⟩

/-- RunOnePending starts what it has popped and pops what is first. -/
theorem runOne_order (parent : G → Option G) (s : CJobSystem G) (run : RunOneAt G) (group : G) :
    ((s.runOne parent run).2.2.jobs group .started ++ uncheckedAfter group (s.runOne parent run).2.1 ++
      ((s.runOne parent run).1.groups group).pending).Sublist
        (run.unchecked group ++ (s.groups group).pending) ∧
    (s.runOne parent run).2.2.pushes group = [] := by
  cases run with
  | starting g =>
    simp only [CJobSystem.runOne]
    split
    · exact ⟨List.Sublist.refl _, rfl⟩
    · rename_i job rest hpending
      refine ⟨?_, rfl⟩
      by_cases hg : g = group
      · subst hg
        simp [JobSeen.jobs, uncheckedAfter, RunOneAt.unchecked, hpending]
      · have hother := s.groups_setGroup_of_ne { s.groups g with pending := rest } (Ne.symm hg)
        simp [JobSeen.jobs, uncheckedAfter, RunOneAt.unchecked, hg, hother]
  | popped g job =>
    obtain ⟨hsub, hnone⟩ := check_order parent s group g job g
    exact ⟨hsub.append_right _, hnone⟩
  | checking g job ancestor =>
    obtain ⟨hsub, hnone⟩ := check_order parent s group g job ancestor
    exact ⟨hsub.append_right _, hnone⟩
  | running g job => exact ⟨List.Sublist.refl _, rfl⟩
  | settling g job =>
    refine ⟨?_, rfl⟩
    by_cases hg : g = group
    · subst hg
      simp [CJobSystem.runOne, JobSeen.jobs, uncheckedAfter, RunOneAt.unchecked]
    · have hother := s.groups_setGroup_of_ne
        { s.groups g with activeJobs := (s.groups g).activeJobs - 1 } (Ne.symm hg)
      simp [CJobSystem.runOne, JobSeen.jobs, uncheckedAfter, RunOneAt.unchecked, hother]

/-- With one thread in the pool and none in Wait, what the group has started, what is in
hand and what is pending stand in the order of submission. -/
structure InTurn (os : List (JobSeen G)) (s : CJobSystem G) (group : G) : Prop where
  nobody : ∀ c ∈ s.calls, c.inWait = false
  order : ∃ x, s.workers = [x] ∧
    (jobsOf group .started os ++ x.unchecked group ++ (s.groups group).pending).Sublist
      ((pushesOf group os).map Prod.fst)

/-- A step of another thread appends to what is pending, or takes some of it away. -/
theorem InTurn.frame (h : InTurn os s group) (hcalls : ∀ c ∈ s'.calls, c.inWait = false)
    (hworkers : s'.workers = s.workers) (hstarted : out.jobs group .started = [])
    (hpending : (s'.groups group).pending.Sublist
      ((s.groups group).pending ++ (out.pushes group).map Prod.fst)) :
    InTurn (os ++ [out]) s' group := by
  obtain ⟨x, hx, hsub⟩ := h.order
  refine ⟨hcalls, x, hworkers.trans hx, ?_⟩
  rw [jobsOf_concat, hstarted, List.append_nil, pushesOf_concat, List.map_append]
  refine (hpending.append_left _).trans ?_
  rw [← List.append_assoc]
  exact hsub.append_right _

theorem InTurn.callStep (h : InTurn os s group) {i : Nat} {c : JobCallAt G}
    (hc : s.calls[i]? = some c) (hst : s.callStep parent i c = some (s', out)) :
    InTurn (os ++ [out]) s' group := by
  have hnobody := h.nobody c (List.mem_of_getElem? hc)
  have hset : ∀ c' : JobCallAt G, c'.inWait = false → ∀ d ∈ s.calls.set i c', d.inWait = false := by
    intro c' hc' d hd
    cases List.mem_or_eq_of_mem_set hd with
    | inl hold => exact h.nobody d hold
    | inr hnew => exact hnew ▸ hc'
  have hsame : ∀ (g : G) (state : CJobGroup.SState), state.pending = (s.groups g).pending →
      ((s.setGroup g state).groups group).pending.Sublist ((s.groups group).pending ++ []) := by
    intro g state hstate
    rw [List.append_nil]
    by_cases hg : group = g
    · subst hg
      rw [CJobSystem.groups_setGroup_self, hstate]
    · rw [CJobSystem.groups_setGroup_of_ne s state hg]
  have hkept : (s.groups group).pending.Sublist ((s.groups group).pending ++ []) := by
    rw [List.append_nil]
  cases c with
  | submitting g priority =>
    cases hst
    exact h.frame (hset _ rfl) rfl (by simp [JobSeen.jobs]) (hsame g _ rfl)
  | counted g job priority =>
    cases hst
    refine h.frame (hset _ rfl) rfl rfl ?_
    by_cases hg : g = group
    · subst hg
      simp [JobSeen.pushes]
    · have hother := s.groups_setGroup_of_ne
        { s.groups g with pending := (s.groups g).pending ++ [job] } (Ne.symm hg)
      simp [JobSeen.pushes, hother, hg]
  | waiting g => cases hnobody
  | helping g run => cases hnobody
  | pausing g => cases hnobody
  | cancelling g =>
    cases hst
    exact h.frame (hset _ rfl) rfl rfl (hsame g _ rfl)
  | swapping g =>
    simp only [CJobSystem.callStep, Option.some.injEq, Prod.mk.injEq] at hst
    obtain ⟨rfl, rfl⟩ := hst
    refine h.frame (hset _ ?_) rfl (by simp [JobSeen.jobs]) ?_
    · split
      all_goals rfl
    · by_cases hg : g = group
      · subst hg
        simp
      · have hother := s.groups_setGroup_of_ne { s.groups g with pending := [] } (Ne.symm hg)
        simp [hother, JobSeen.pushes]
  | dropping g jobs =>
    cases hst
    exact h.frame (hset _ rfl) rfl (by simp [JobSeen.jobs]) (hsame g _ rfl)
  | locking before =>
    simp only [CJobSystem.callStep] at hst
    split at hst
    · cases hst
    · cases hst
      exact h.frame (hset _ rfl) rfl rfl hkept
  | loadingPending before =>
    simp only [CJobSystem.callStep] at hst
    split at hst
    all_goals
      cases hst
      exact h.frame (hset _ rfl) rfl rfl hkept
  | loadingActive before =>
    simp only [CJobSystem.callStep] at hst
    split at hst
    all_goals
      cases hst
      exact h.frame (hset _ rfl) rfl rfl hkept
  | done => cases hst
  | _ =>
    cases hst
    exact h.frame (hset _ rfl) rfl rfl hkept

theorem InTurn.runner (h : InTurn os s group) {job : Nat} {run : RunOneAt G} {x' : WorkerAt G}
    (hy : s.workers = [.runner job run])
    (hx' : x'.unchecked group = uncheckedAfter group (s.runOne parent run).2.1) :
    InTurn (os ++ [(s.runOne parent run).2.2]) ((s.runOne parent run).1.setWorker 0 x') group := by
  obtain ⟨y, hy', hsub⟩ := h.order
  obtain rfl : WorkerAt.runner job run = y := by simpa [hy] using hy'
  obtain ⟨hmoved, hnone⟩ := runOne_order parent s run group
  have hcalls : (s.runOne parent run).1.calls = s.calls := by rw [s.runOne_frame parent run]
  have hworkers : (s.runOne parent run).1.workers = s.workers := by rw [s.runOne_frame parent run]
  refine ⟨fun c hc => h.nobody c (hcalls ▸ hc), x', ?_, ?_⟩
  · rw [CJobSystem.setWorker, hworkers, hy]
    rfl
  · rw [hx', jobsOf_concat, pushesOf_concat, hnone, List.append_nil, CJobSystem.groups_setWorker]
    rw [List.append_assoc] at hsub
    refine List.Sublist.trans ?_ hsub
    rw [List.append_assoc, List.append_assoc, ← List.append_assoc (JobSeen.jobs _ _ _)]
    exact hmoved.append_left (jobsOf group .started os)

/-- A step of the pool's only thread. -/
theorem InTurn.workStep (h : InTurn os s group) {i : Nat} {x : WorkerAt G}
    (hx : s.workers[i]? = some x) (hst : s.workStep parent i x = some (s', out)) :
    InTurn (os ++ [out]) s' group := by
  obtain ⟨y, hy, hsub⟩ := h.order
  obtain ⟨rfl, rfl⟩ : i = 0 ∧ x = y := by
    rw [hy] at hx
    cases i with
    | zero => exact ⟨rfl, (Option.some.inj hx).symm⟩
    | succ i => cases hx
  have hstill : ∀ (t : CJobSystem G) (x' : WorkerAt G), t.workers = s.workers → t.calls = s.calls →
      t.groups = s.groups → x'.unchecked group = x.unchecked group →
      InTurn (os ++ [.nothing]) (t.setWorker 0 x') group := by
    intro t x' hworkers hcalls hgroups hunchecked
    refine ⟨fun c hc => h.nobody c (hcalls ▸ hc), x', ?_, ?_⟩
    · simp [CJobSystem.setWorker, hworkers, hy]
    · rw [jobsOf_concat, pushesOf_concat, CJobSystem.groups_setWorker, hgroups, hunchecked]
      simpa [JobSeen.jobs, JobSeen.pushes] using hsub
  cases x with
  | idle =>
    simp only [CJobSystem.workStep] at hst
    split at hst
    · cases hst
      exact hstill _ _ rfl rfl rfl rfl
    · split at hst
      · cases hst
        exact hstill _ _ rfl rfl rfl rfl
      · cases hst
  | between job body =>
    cases hst
    cases body with
    | runner g => exact hstill _ _ rfl rfl rfl rfl
    | other => exact hstill _ _ rfl rfl rfl rfl
  | runner job run =>
    simp only [CJobSystem.workStep, Option.some.injEq, Prod.mk.injEq] at hst
    obtain ⟨rfl, rfl⟩ := hst
    refine h.runner hy ?_
    split
    · rename_i run' hnext
      rw [hnext]
      rfl
    · rename_i hnext
      rw [hnext]
      rfl
  | finishing job =>
    simp only [CJobSystem.workStep] at hst
    split at hst
    · cases hst
    · cases hst
      exact hstill _ _ rfl rfl rfl rfl
  | exited => cases hst
  | _ =>
    cases hst
    exact hstill _ _ rfl rfl rfl rfl

theorem InTurn.step (h : InTurn os s group) {m : JobMove G} (hm : ∀ g, m ≠ .wait g)
    (hst : s.step parent m = some (s', out)) : InTurn (os ++ [out]) s' group := by
  have hbegin : ∀ c : JobCallAt G, c.inWait = false → s.begin c = some (s', out) →
      InTurn (os ++ [out]) s' group := by
    intro c hc hst
    cases hst
    refine h.frame (fun d hd => ?_) rfl rfl ?_
    · cases List.mem_append.mp hd with
      | inl hold => exact h.nobody d hold
      | inr hnew => exact List.mem_singleton.mp hnew ▸ hc
    · exact List.sublist_append_left _ _
  cases m with
  | wait g => exact absurd rfl (hm g)
  | terminate =>
    cases hst
    exact h.frame h.nobody rfl rfl (List.sublist_append_left _ _)
  | call index =>
    obtain ⟨c, hc, hst⟩ := Option.bind_eq_some_iff.mp hst
    exact h.callStep hc hst
  | work worker =>
    obtain ⟨x, hx, hst⟩ := Option.bind_eq_some_iff.mp hst
    exact h.workStep hx hst
  | _ => exact hbegin _ rfl hst

/-- Lists of numbered jobs that tell the same numbers are the same. -/
theorem eq_of_map_fst {jobs jobs' : List (Nat × EJobPriority)} (hperm : jobs'.Perm jobs)
    (hnodup : (jobs.map Prod.fst).Nodup) (hsame : jobs.map Prod.fst = jobs'.map Prod.fst) :
    jobs = jobs' := by
  refine List.ext_getElem (by simpa using congrArg List.length hsame) fun i hi hi' => ?_
  have hfst : jobs[i].1 = jobs'[i].1 := by
    have hget := List.getElem_of_eq hsame (by simpa using hi)
    simpa using hget
  exact List.inj_on_of_nodup_map hnodup (List.getElem_mem hi)
    (hperm.mem_iff.mp (List.getElem_mem hi')) hfst

/-- With one thread in the pool and none in Wait, when all jobs of a group have started,
they have done so in the order of priority and submission exactly if they were
submitted in it. -/
theorem groupOrder_iff {ms : List (JobMove G)} (hr : (jobSystem parent).run (.create 1) ms = some (s, os))
    (hwait : ∀ g, .wait g ∉ ms) (group : G)
    (hall : (jobsOf group .started os).length = (pushesOf group os).length) :
    jobsOf group .started os = byPriority (pushesOf group os) ↔
      (pushesOf group os).Pairwise fun a b => a.2.value ≤ b.2.value := by
  have hstart : InTurn [] (.create 1 : CJobSystem G) group := ⟨by simp [CJobSystem.create], .idle, rfl, List.nil_sublist _⟩
  have hturn := Machine.run_invariant
    (fun ms os s => (∀ g, .wait g ∉ ms) → InTurn os s group) [] []
    (fun ms os s m t o h hst hnone => by
      refine (h fun g hg => hnone g (List.mem_append_left _ hg)).step (fun g hg => hnone g ?_) hst
      exact List.mem_append_right _ (List.mem_singleton.mpr hg.symm)) (fun _ => hstart) hr hwait
  obtain ⟨x, -, hsub⟩ := hturn.order
  have hstarted : jobsOf group .started os = (pushesOf group os).map Prod.fst := by
    have hle : (jobsOf group .started os).Sublist ((pushesOf group os).map Prod.fst) := by
      rw [List.append_assoc] at hsub
      exact (List.sublist_append_left _ _).trans hsub
    exact hle.eq_of_length (by simpa using hall)
  have hnodup : ((pushesOf group os).map Prod.fst).Nodup := by
    have hbooks := books_run hr group
    have hperm := hbooks.once.nodup_iff.mpr (hbooks.numbers ▸ List.nodup_range)
    rw [← hstarted]
    refine hperm.sublist ?_
    exact ((List.sublist_append_right _ _).trans (List.sublist_append_left _ _)).trans
      (List.sublist_append_left _ _)
  rw [hstarted, byPriority]
  constructor
  · intro hsame
    have hsorted := List.pairwise_insertionSort
      (fun a b : Nat × EJobPriority => a.2.value ≤ b.2.value) (pushesOf group os)
    rw [← eq_of_map_fst (List.perm_insertionSort _ _) hnodup hsame] at hsorted
    exact hsorted
  · intro hsorted
    rw [hsorted.insertionSort_eq]

/-- Two jobs are submitted to group 0 while the pool's thread runs another job. -/
def whileBusy (first second : EJobPriority) : List (JobMove Nat) :=
  JobMove.schedule .normal :: List.replicate 3 (JobMove.call 0) ++ List.replicate 3 (JobMove.work 0) ++
    JobMove.submit 0 first :: List.replicate 5 (JobMove.call 1) ++
    JobMove.submit 0 second :: List.replicate 5 (JobMove.call 2) ++ List.replicate 18 (JobMove.work 0)

theorem groupOrder_iff_high_first : ∃ s os,
    (jobSystem fun _ : Nat => none).run (.create 1) (whileBusy .high .low) = some (s, os) ∧
    jobsOf 0 .started os = [0, 1] ∧ (jobsOf 0 .started os = byPriority (pushesOf 0 os) ↔
      (pushesOf 0 os).Pairwise fun a b => a.2.value ≤ b.2.value) := by
  have hrun : ((jobSystem fun _ : Nat => none).run (.create 1) (whileBusy .high .low)).map
      (fun r => (jobsOf 0 .started r.2, (pushesOf 0 r.2).length)) = some ([0, 1], 2) := by decide +kernel
  obtain ⟨⟨s, os⟩, hr, hos⟩ := Option.map_eq_some_iff.mp hrun
  obtain ⟨hstarted, hlength⟩ := Prod.mk.inj hos
  refine ⟨s, os, hr, hstarted, groupOrder_iff hr (by simp [whileBusy]) 0 ?_⟩
  rw [hlength]
  exact congrArg List.length hstarted

/-- The runner of the High job comes first and takes the Low job. -/
theorem groupOrder_low_first : ∃ s os,
    (jobSystem fun _ : Nat => none).run (.create 1) (whileBusy .low .high) = some (s, os) ∧
    jobsOf 0 .started os = [0, 1] ∧ byPriority (pushesOf 0 os) = [1, 0] := by
  have hrun : ((jobSystem fun _ : Nat => none).run (.create 1) (whileBusy .low .high)).map
      (fun r => (jobsOf 0 .started r.2, byPriority (pushesOf 0 r.2))) = some ([0, 1], [1, 0]) := by
    decide +kernel
  obtain ⟨⟨s, os⟩, hr, hos⟩ := Option.map_eq_some_iff.mp hrun
  obtain ⟨hstarted, hexpected⟩ := Prod.mk.inj hos
  exact ⟨s, os, hr, hstarted, hexpected⟩

end TgeCore.Threading
