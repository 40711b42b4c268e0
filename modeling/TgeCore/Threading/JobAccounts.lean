import TgeCore.Library.Calls
import TgeCore.Threading.Uncancelled

namespace TgeCore.Threading
open Library

variable {G : Type} [DecidableEq G] {parent : G → Option G} {s s' : CJobSystem G} {group : G}
  {os : List (JobSeen G)}

/-- The accounts of a group add up in a state of a run. -/
structure GroupAccounts (parent : G → Option G) (ms : List (JobMove G)) (os : List (JobSeen G))
    (s : CJobSystem G) (group : G) : Prop where
  own : tally (JobMove.asks group) ms = (jobsOf group .submitted os).length + s.asked group
  goesOn : ∀ (i : Nat) priority, s.calls[i]? = some (.submitting group priority) →
    ∃ s' job, s.step parent (.call i) = some (s', .submitted group job)
  active : (s.groups group).activeJobs = (s.groups group).pending.length +
    ((s.jobsAt group .unchecked).length + (s.jobsAt group .decided).length) +
    (s.jobsAt group .counted).length + (s.jobsAt group .dropping).length
  distinct : (jobsOf group .submitted os).Nodup
  once : (s.jobsAt group .counted ++ (s.groups group).pending ++ s.jobsAt group .unchecked ++
    jobsOf group .started os ++ jobsOf group .skipped os ++ jobsOf group .dropped os).Perm
      (jobsOf group .submitted os)
  settledOnce : (s.jobsAt group .counted ++ (s.groups group).pending ++ s.jobsAt group .unchecked ++
    s.jobsAt group .decided ++ s.jobsAt group .dropping ++ jobsOf group .settled os).Perm
      (jobsOf group .submitted os)
  waits : ∀ m s', s.step parent m = some (s', .waited group) →
    (jobsOf group .settled os).Perm (jobsOf group .submitted os)
  ends : ∀ (i : Nat) c m s' out, s.calls[i]? = some c → c.waits group → s.step parent m = some (s', out) →
    s'.calls[i]? = some .done → (jobsOf group .settled os).Perm (jobsOf group .submitted os)
  runners : (s.groups group).pending.length ≤ s.runners group
  cancels : ∀ a, .cancel a ∈ ms → (s.groups a).cancelled = true ∨ .cancelling a ∈ s.calls
  cancelled : ∀ a, Ancestor parent group a → (s.groups a).cancelled = true → ∀ ms s' os',
    (jobSystem parent).run s ms = some (s', os') → ∀ job ∈ jobsOf group .started os',
      ∃ b, RunOneAt.checking group job b ∈ s.runs

/-- Every SubmitJob call of a group has submitted its job, but for those that have not counted it. -/
theorem submitted_own {numThreads : Nat} {ms : List (JobMove G)}
    (hr : (jobSystem parent).run (.create numThreads) ms = some (s, os)) (group : G) :
    tally (JobMove.asks group) ms = (jobsOf group .submitted os).length + s.asked group := by
  have howes : _ + tally (JobMove.asks group) ms =
      tally (fun out => (JobSeen.jobs group .submitted out).length) os + s.asked group :=
    Machine.run_owes_tally (fun s => s.asked group) (fun _ _ _ _ hst => step_asked hst) hr
  have hjobs : tally (fun out => (JobSeen.jobs group .submitted out).length) os =
      (jobsOf group .submitted os).length := by
    have hone : tally (fun _ => 1) (jobsOf group .submitted os) = (jobsOf group .submitted os).length := tally_one
    rw [← hone, jobsOf, tally_flatMap]
    simp only [tally_one]
  rw [← hjobs, ← howes]
  exact (Nat.zero_add _).symm

/-- A Cancel sets its group's flag with its first step, and the flag stays. -/
theorem cancelling_step {m : JobMove G} {out : JobSeen G} {a : G} (hst : s.step parent m = some (s', out))
    (h : (s.groups a).cancelled = true ∨ .cancelling a ∈ s.calls) :
    (s'.groups a).cancelled = true ∨ .cancelling a ∈ s'.calls := by
  rcases h with hset | hcall
  · exact .inl ((step_walks hst a).cancelled a hset)
  · obtain ⟨i, hi⟩ := List.mem_iff_getElem?.mp hcall
    by_cases hm : m = .call i
    · subst hm
      rw [CJobSystem.step, hi] at hst
      cases hst
      exact .inl (by simp)
    · refine .inr (List.mem_of_getElem? (i := i) ?_)
      have hlt : i < s.calls.length := (List.getElem?_eq_some_iff.mp hi).1
      cases step_stepped hst a with
      | begins _ c hbegin => rw [(begin_calls hbegin).1, List.getElem?_append_left hlt, hi]
      | goes j c c' hc called =>
        have hne : j ≠ i := fun heq => hm (congrArg JobMove.call heq)
        rw [called.calls, List.getElem?_set_ne hne, hi]
      | works j x hx worked => rw [worked.calls, hi]
      | terminates hs _ => rw [hs, hi]

theorem cancelled_own {numThreads : Nat} {ms : List (JobMove G)}
    (hr : (jobSystem parent).run (.create numThreads) ms = some (s, os)) (a : G) (ha : .cancel a ∈ ms) :
    (s.groups a).cancelled = true ∨ .cancelling a ∈ s.calls := by
  refine Machine.run_invariant (fun ms _ s => .cancel a ∈ ms → (s.groups a).cancelled = true ∨
    .cancelling a ∈ s.calls) [] [] (fun ms os s m t o h hst hm => ?_) (by simp) hr ha
  rcases List.mem_append.mp hm with hold | hnew
  · exact cancelling_step hst (h hold)
  · obtain rfl := List.mem_singleton.mp hnew
    cases hst
    exact .inr (List.mem_append_right _ (List.mem_singleton_self _))

/-- A Wait that comes back finds no active job. -/
theorem wait_ends {m : JobMove G} {out : JobSeen G} {i : Nat} {c : JobCallAt G} (hc : s.calls[i]? = some c)
    (hwaits : c.waits group) (hst : s.step parent m = some (s', out)) (hdone : s'.calls[i]? = some .done) :
    (s.groups group).activeJobs = 0 := by
  rcases step_call hst group hc with hsame | ⟨b, hb, hcalled⟩
  · rw [hsame] at hdone
    cases hdone
    exact hwaits.elim
  · obtain rfl : b = .done := Option.some.inj (hb.symm.trans hdone)
    rcases hcalled.waits hwaits with hmore | ⟨-, hnone⟩
    · exact hmore.elim
    · exact hnone

/-- Any run of any number of calls and of the threads of the pool, from its start on. -/
theorem jobGroup_accounts {numThreads : Nat} {ms : List (JobMove G)}
    (hr : (jobSystem parent).run (.create numThreads) ms = some (s, os)) (group : G) :
    GroupAccounts parent ms os s group := by
  have hbooks := books_run hr group
  refine ⟨submitted_own hr group, fun i priority hi => ?_, hbooks.activeJobs, ?_, hbooks.once,
    hbooks.settledOnce, fun m s' hst => ?_, fun i c m s' out hc hwaits hst hdone => ?_, hbooks.runners,
    cancelled_own hr, fun a ha hcancelled ms' s' os' hrun job hjob => ?_⟩
  · exact ⟨_, _, by rw [CJobSystem.step, hi]; rfl⟩
  · rw [hbooks.numbers]
    exact List.nodup_range
  · exact hbooks.settled (step_waited hst)
  · exact hbooks.settled (wait_ends hc hwaits hst hdone)
  · have hstart : Stops parent group (fun job => ∃ b, RunOneAt.checking group job b ∈ s.runs) s :=
      ⟨⟨a, ha, hcancelled⟩, fun job b hb => .inl ⟨b, hb⟩⟩
    have hkept := Machine.run_invariant (fun _ os s' =>
      Stops parent group (fun job => ∃ b, RunOneAt.checking group job b ∈ s.runs) s' ∧
        ∀ job ∈ jobsOf group .started os, ∃ b, RunOneAt.checking group job b ∈ s.runs) [] []
      (fun _ os s' m t o h hst => by
        obtain ⟨hstops, hlog⟩ := h
        obtain ⟨hstops', hout⟩ := hstops.step hst
        refine ⟨hstops', fun job hjob => ?_⟩
        rw [jobsOf_concat] at hjob
        cases List.mem_append.mp hjob with
        | inl hold => exact hlog job hold
        | inr hnew =>
          cases o with
          | started g k =>
            by_cases hg : g = group
            · obtain rfl : job = k := by simpa [JobSeen.jobs, hg] using hnew
              exact hout job (hg ▸ rfl)
            · simp [JobSeen.jobs, hg] at hnew
          | _ => simp [JobSeen.jobs] at hnew) ⟨hstart, by simp [jobsOf]⟩ hrun
    exact hkept.2 job hjob

/-- Two jobs of group 1, whose parent group 0 is cancelled when the first one is popped.
A thread that waits for group 1 meanwhile takes the other one. -/
def cancelledParent : List (JobMove Nat) :=
  JobMove.submit 1 .normal :: List.replicate 5 (JobMove.call 0) ++
    JobMove.submit 1 .high :: List.replicate 5 (JobMove.call 1) ++ List.replicate 4 (JobMove.work 0) ++
    [JobMove.cancel 0, JobMove.call 2, JobMove.call 2] ++ List.replicate 2 (JobMove.work 0) ++
    JobMove.wait 1 :: List.replicate 7 (JobMove.call 3) ++ [JobMove.work 0, JobMove.call 3, JobMove.call 3]

def parentOfOne (group : Nat) : Option Nat := if group = 1 then some 0 else none

theorem jobGroup_accounts_cancelled : ∃ s os,
    (jobSystem parentOfOne).run (.create 1) cancelledParent = some (s, os) ∧
    os.filter (· ≠ .nothing) = [.submitted 1 0, .pushed 1 0 .normal, .submitted 1 1, .pushed 1 1 .high,
      .dropped 0 [], .skipped 1 0, .skipped 1 1, .settled 1 [1], .settled 1 [0], .waited 1] ∧
    GroupAccounts parentOfOne cancelledParent os s 1 := by
  have hrun : ((jobSystem parentOfOne).run (.create 1) cancelledParent).map
      (fun r => r.2.filter (· ≠ .nothing)) = some [.submitted 1 0, .pushed 1 0 .normal, .submitted 1 1,
        .pushed 1 1 .high, .dropped 0 [], .skipped 1 0, .skipped 1 1, .settled 1 [1], .settled 1 [0],
        .waited 1] := by decide +kernel
  obtain ⟨⟨s, os⟩, hr, hos⟩ := Option.map_eq_some_iff.mp hrun
  exact ⟨s, os, hr, hos, jobGroup_accounts hr 1⟩

end TgeCore.Threading
