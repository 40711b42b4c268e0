import TgeCore.Threading.GroupSteps

namespace TgeCore.Threading
open Library

section History
variable {seen earlier : List GroupSeen} {o : GroupSeen} {thread group outer : Nat}

theorem bodies_concat (thread : Nat) (seen : List GroupSeen) (o : GroupSeen) :
    bodies thread (seen ++ [o]) = bodiesAfter thread (bodies thread seen) o := by
  simp [bodies]

theorem nested_concat : Nested (seen ++ [o]) group outer ↔
    Nested seen group outer ∨ ∃ thread, o = .constructed thread group ∧ (bodies thread seen).head? = some outer := by
  constructor
  · intro h
    obtain ⟨before, thread, after, heq, hhead⟩ := h
    rcases after.eq_nil_or_concat with rfl | ⟨after, last, rfl⟩
    · obtain ⟨rfl, hlast⟩ := List.append_inj' heq rfl
      exact .inr ⟨thread, (List.cons.inj hlast).1, hhead⟩
    · rw [List.concat_eq_append, ← List.cons_append, ← List.append_assoc] at heq
      obtain ⟨rfl, -⟩ := List.append_inj' heq rfl
      exact .inl ⟨before, thread, after, rfl, hhead⟩
  · intro h
    rcases h with ⟨before, thread, after, rfl, hhead⟩ | ⟨thread, rfl, hhead⟩
    · exact ⟨before, thread, after ++ [o], by simp, hhead⟩
    · exact ⟨seen, thread, [], rfl, hhead⟩

theorem nested_concat_of_ne (ho : ∀ thread, o ≠ .constructed thread group) :
    Nested (seen ++ [o]) group outer ↔ Nested seen group outer := by
  rw [nested_concat]
  simp [ho]

theorem Nested.mem (h : Nested seen group outer) : ∃ thread, .constructed thread group ∈ seen := by
  obtain ⟨before, thread, after, rfl, -⟩ := h
  exact ⟨thread, by simp⟩

theorem Nested.later (h : Nested earlier group outer) (rest : List GroupSeen) :
    Nested (earlier ++ rest) group outer := by
  obtain ⟨before, thread, after, rfl, hhead⟩ := h
  exact ⟨before, thread, after ++ rest, by simp, hhead⟩

theorem Flagged.later (h : Flagged earlier group) (rest : List GroupSeen) : Flagged (earlier ++ rest) group := by
  obtain ⟨thread, hmem⟩ := h
  exact ⟨thread, List.mem_append_left rest hmem⟩

theorem flagged_concat_of_ne (ho : ∀ thread, o ≠ .cancelled thread group) :
    Flagged (seen ++ [o]) group ↔ Flagged seen group := by
  simp [Flagged, fun thread => (ho thread).symm]

/-- A group is cancelled itself or with one that it was constructed in. -/
theorem Revoked.split (h : Revoked seen group) :
    Flagged seen group ∨ ∃ outer, Nested seen group outer ∧ Revoked seen outer := by
  obtain ⟨last, hpath, hflagged⟩ := h
  rcases Relation.ReflTransGen.cases_head hpath with rfl | ⟨outer, hnested, hrest⟩
  · exact .inl hflagged
  · exact .inr ⟨outer, hnested, last, hrest, hflagged⟩

end History

namespace CJobGroups
variable {s s' : CJobGroups} {thread group : Nat} {move : GroupMove} {o q : GroupSeen} {c : Call}
  {states states' : Cells (Shared SState)} {state : Shared SState} {seen : List GroupSeen} {result : Bool}

/-- The flags and the parents of the states that are there are those of the history. -/
structure Recorded (seen : List GroupSeen) (states : Cells (Shared SState)) : Prop where
  flags : ∀ group state, states.cell group = some state → (state.value.cancelled = true ↔ Flagged seen group)
  links : ∀ group state, states.cell group = some state → ∀ p, state.parent = some p ↔ Nested seen group p

theorem Recorded.of_kept (h : Recorded seen states) (hkept : Kept states states') : Recorded seen states' := by
  refine ⟨fun group state' hs' => ?_, fun group state' hs' p => ?_⟩
  · obtain ⟨state, hs, -, hflag⟩ := hkept.2 group state' hs'
    rw [← hflag]
    exact h.flags group state hs
  · obtain ⟨state, hs, hparent, -⟩ := hkept.2 group state' hs'
    rw [← hparent]
    exact h.links group state hs p

theorem Recorded.nested (h : Recorded seen states) {a b : Nat} (hpath : Relation.ReflTransGen states.Links a b) :
    Relation.ReflTransGen (Nested seen) a b := by
  induction hpath with
  | refl => exact .refl
  | tail _ hlast ih =>
    obtain ⟨state, hs, hparent⟩ := hlast
    exact ih.tail ((h.links _ state hs _).mp hparent)

theorem isCancelled_true (h : isCancelled state = .inl true) : state.value.cancelled = true := by
  unfold isCancelled at h
  split at h
  · assumption
  · split at h <;> simp at h

/-- Unless the flag is set, the answer is that of the parent, and without one it is no. -/
theorem isCancelled_of_ne (h : isCancelled state ≠ .inl true) :
    state.value.cancelled = false ∧ isCancelled state = (state.parent.map Sum.inr).getD (.inl false) := by
  unfold isCancelled at h ⊢
  split at h
  · exact absurd rfl h
  · rename_i hflag
    rw [if_neg hflag]
    refine ⟨Bool.eq_false_iff.mpr hflag, ?_⟩
    cases state.parent <;> rfl

/-- Up from a group that was cancelled one comes to another that was, until a flag is found. -/
theorem Recorded.revoked_parent {earlier rest : List GroupSeen} (h : Recorded (earlier ++ rest) states)
    (hs : states.cell group = some state) (hne : isCancelled state ≠ .inl true) (hrevoked : Revoked earlier group) :
    ∃ p, isCancelled state = .inr p ∧ Revoked earlier p := by
  obtain ⟨hflag, hanswer⟩ := isCancelled_of_ne hne
  rcases hrevoked.split with hflagged | ⟨p, hnested, hrevoked⟩
  · have hset := (h.flags group state hs).mpr (hflagged.later rest)
    rw [hflag] at hset
    cases hset
  · have hparent := (h.links group state hs p).mpr (hnested.later rest)
    rw [hparent] at hanswer
    exact ⟨p, hanswer, hrevoked⟩

/-- A question is the last that was seen of a thread. If its group was cancelled before, then so was the one that the
call is at, and one that is at none has not been. -/
def Open (thread : Nat) (question : GroupSeen) (seen : List GroupSeen) (group : Nat) (ancestor : Option Nat) : Prop :=
  ∃ earlier since, seen = earlier ++ question :: since ∧ (∀ o ∈ since, o.thread? ≠ some thread) ∧
    (Revoked earlier group → ∃ a, ancestor = some a ∧ Revoked earlier a)

theorem Open.other {ancestor : Option Nat} (h : Open thread q seen group ancestor) (ho : o.thread? ≠ some thread) :
    Open thread q (seen ++ [o]) group ancestor := by
  obtain ⟨earlier, since, rfl, hsince, hup⟩ := h
  refine ⟨earlier, since ++ [o], by simp, fun p hp => ?_, hup⟩
  rcases List.mem_append.mp hp with hp | hp
  · exact hsince p hp
  · rwa [List.mem_singleton.mp hp]

theorem open_begins (thread : Nat) (question : GroupSeen) (seen : List GroupSeen) (group : Nat) :
    Open thread question (seen ++ [question]) group (some group) :=
  ⟨seen, [], rfl, by simp, fun h => ⟨group, rfl, h⟩⟩

/-- One state on, or at none when it was the last. -/
theorem Open.parent {a : Nat} {n : Option Nat} (h : Open thread q seen group (some a))
    (hrecorded : Recorded seen states) (hs : states.cell a = some state)
    (hnext : isCancelled state = (n.map .inr).getD (.inl false)) : Open thread q seen group n := by
  obtain ⟨earlier, since, rfl, hsince, hup⟩ := h
  refine ⟨earlier, since, rfl, hsince, fun hrevoked => ?_⟩
  obtain ⟨b, hb, hrevoked⟩ := hup hrevoked
  obtain rfl := Option.some.inj hb
  have hne : isCancelled state ≠ .inl true := by
    rw [hnext]
    cases n <;> simp
  obtain ⟨p, hp, hrevoked⟩ := hrecorded.revoked_parent hs hne hrevoked
  rw [hnext] at hp
  cases n with
  | none => cases hp
  | some b => exact ⟨p, congrArg some (Sum.inr.inj hp), hrevoked⟩

theorem Open.told_false (h : Open thread q seen group none) : Told thread q seen group false := by
  obtain ⟨earlier, since, rfl, hsince, hup⟩ := h
  refine ⟨earlier, since, rfl, hsince, fun hrevoked => ?_, fun hfalse => by cases hfalse⟩
  obtain ⟨a, ha, -⟩ := hup hrevoked
  cases ha

theorem Open.told {a : Nat} (h : Open thread q seen group (some a)) (hrecorded : Recorded seen states)
    (hpath : Relation.ReflTransGen states.Links group a) (hs : states.cell a = some state)
    (hresult : isCancelled state = .inl result) : Told thread q seen group result := by
  cases result with
  | false => exact (h.parent (n := none) hrecorded hs hresult).told_false
  | true =>
    obtain ⟨earlier, since, rfl, hsince, -⟩ := h
    refine ⟨earlier, since, rfl, hsince, fun _ => rfl, fun _ => ?_⟩
    exact ⟨a, hrecorded.nested hpath, (hrecorded.flags a state hs).mp (isCancelled_true hresult)⟩

/-- The groups of a history are older than the next one. -/
def Older (seen : List GroupSeen) (next : Nat) : Prop :=
  ∀ group, (Flagged seen group ∨ ∃ thread, .constructed thread group ∈ seen) → group < next

/-- What is to be completed is so before anything else is seen of its thread, or the thread is still in its call. -/
def Carried (seen : List GroupSeen) (s : CJobGroups) : Prop :=
  ∀ before q after thread, seen = before ++ q :: after → q.thread? = some thread → (∃ o, Completes q o) →
    (∃ since o rest, after = since ++ o :: rest ∧ (∀ p ∈ since, p.thread? ≠ some thread) ∧ Completes q o) ∨
      ((∀ p ∈ after, p.thread? ≠ some thread) ∧ ∃ c ∈ s.calls, c.thread = thread ∧ c.shown = some q)

theorem Carried.next (h : Carried seen s) (hcarries : Carries s s' o) : Carried (seen ++ [o]) s' := by
  intro before q after thread heq hthread hopens
  rcases after.eq_nil_or_concat with rfl | ⟨after, last, rfl⟩
  · obtain ⟨-, hlast⟩ := List.append_inj' heq rfl
    obtain rfl := (List.cons.inj hlast).1
    obtain ⟨c, hc, hsame, hshown⟩ := hcarries.shows hopens
    exact .inr ⟨by simp, c, hc, Option.some.inj (hsame.symm.trans hthread), hshown⟩
  · rw [List.concat_eq_append] at heq ⊢
    rw [← List.cons_append, ← List.append_assoc] at heq
    obtain ⟨hseen, hlast⟩ := List.append_inj' heq rfl
    obtain rfl := (List.cons.inj hlast).1
    rcases h before q after thread hseen hthread hopens with
      ⟨since, p, rest, rfl, hsince, hcompletes⟩ | ⟨hquiet, c, hc, rfl, hshown⟩
    · exact .inl ⟨since, p, rest ++ [o], by simp, hsince, hcompletes⟩
    · rcases hcarries.stays c hc q hshown with hcompletes | ⟨hother, hstays⟩
      · exact .inl ⟨after, o, [], rfl, hquiet, hcompletes⟩
      · refine .inr ⟨fun p hp => ?_, hstays⟩
        rcases List.mem_append.mp hp with hp | hp
        · exact hquiet p hp
        · rwa [List.mem_singleton.mp hp]

/-- The states, tCurrent, the bodies and the questions are those of the history. -/
structure Tracked (seen : List GroupSeen) (s : CJobGroups) : Prop where
  sound : s.Sound
  recorded : Recorded seen s.states
  older : Older seen s.states.next
  onThreads : ∀ thread, (s.stack thread).map Frame.group = bodies thread seen
  asked : ∀ c ∈ s.calls, ∀ q, c.asks = some q → Open c.thread q seen c.group c.doing.ancestor?
  carried : Carried seen s

theorem Tracked.current (h : Tracked seen s) (thread : Nat) : s.tCurrent thread = (bodies thread seen).head? := by
  rw [← h.onThreads thread]
  exact (h.sound.stacked thread).head

theorem Recorded.quiet (h : Recorded seen s.states) (hkept : Kept s.states s'.states)
    (hcancelled : ∀ thread group, o ≠ .cancelled thread group)
    (hconstructed : ∀ thread group, o ≠ .constructed thread group) : Recorded (seen ++ [o]) s'.states := by
  have hsame := h.of_kept hkept
  refine ⟨fun group state hs => ?_, fun group state hs p => ?_⟩
  · rw [flagged_concat_of_ne fun thread => hcancelled thread group]
    exact hsame.flags group state hs
  · rw [nested_concat_of_ne fun thread => hconstructed thread group]
    exact hsame.links group state hs p

theorem Older.quiet {next next' : Nat} (h : Older seen next) (hnext : next' = next)
    (hcancelled : ∀ thread group, o ≠ .cancelled thread group)
    (hconstructed : ∀ thread group, o ≠ .constructed thread group) : Older (seen ++ [o]) next' := by
  intro group hgroup
  rw [hnext]
  apply h group
  rw [flagged_concat_of_ne fun thread => hcancelled thread group] at hgroup
  simpa [fun thread => (hconstructed thread group).symm] using hgroup

theorem recorded_constructed (h : Tracked seen s) {thread group : Nat}
    (hf : Alters s s' (.constructed thread group)) :
    Recorded (seen ++ [.constructed thread group]) s'.states ∧
      Older (seen ++ [.constructed thread group]) s'.states.next := by
  obtain ⟨rfl, hnext, hcells⟩ := hf
  have hnew : ∀ p, ¬ Nested seen s.states.next p := by
    intro p hp
    exact absurd (h.older _ (.inr hp.mem)) (Nat.lt_irrefl _)
  refine ⟨⟨fun other state' hs' => ?_, fun other state' hs' p => ?_⟩, fun other hother => ?_⟩
  · rw [flagged_concat_of_ne (by simp)]
    rcases hcells other state' hs' with ⟨rfl, -, hflag⟩ | ⟨-, state, hs, -, hflag⟩
    · have hnone : ¬ Flagged seen s.states.next := fun hmem => absurd (h.older _ (.inl hmem)) (Nat.lt_irrefl _)
      simp [hflag, hnone]
    · rw [← hflag, h.recorded.flags other state hs]
  · rw [nested_concat]
    rcases hcells other state' hs' with ⟨rfl, hparent, -⟩ | ⟨hne, state, hs, hparent, -⟩
    · rw [hparent, h.current thread]
      simp [hnew]
    · rw [← hparent, h.recorded.links other state hs p]
      simp [Ne.symm hne]
  · rw [hnext]
    by_cases hsame : other = s.states.next
    · omega
    · rw [flagged_concat_of_ne (by simp)] at hother
      have hlt := h.older other (by simpa [hsame, Ne.symm hsame] using hother)
      omega

theorem recorded_cancelled (h : Tracked seen s) {thread group : Nat} (hf : Alters s s' (.cancelled thread group)) :
    Recorded (seen ++ [.cancelled thread group]) s'.states ∧
      Older (seen ++ [.cancelled thread group]) s'.states.next := by
  obtain ⟨hlt, hnext, hcells⟩ := hf
  have hflagged : ∀ other, Flagged (seen ++ [.cancelled thread group]) other ↔ Flagged seen other ∨ other = group := by
    intro other
    simp [Flagged, exists_or]
  refine ⟨⟨fun other state' hs' => ?_, fun other state' hs' p => ?_⟩, fun other hother => ?_⟩
  · obtain ⟨state, hs, -, hflag⟩ := hcells other state' hs'
    rw [hflag, h.recorded.flags other state hs, hflagged]
  · obtain ⟨state, hs, hparent, -⟩ := hcells other state' hs'
    rw [nested_concat_of_ne (by simp), ← hparent]
    exact h.recorded.links other state hs p
  · rw [hnext]
    rw [hflagged] at hother
    by_cases hsame : other = group
    · exact hsame ▸ hlt
    · exact h.older other (by simpa [hsame] using hother)

/-- The questions that are still to be answered after a step. -/
theorem Tracked.pends (h : Tracked seen s) (hpends : s.Pends o c) {q : GroupSeen} (hq : c.asks = some q) :
    Open c.thread q (seen ++ [o]) c.group c.doing.ancestor? := by
  rcases hpends with ⟨hmem, ho⟩ | ⟨hasks, ha⟩ | ⟨rfl, d, hd, hthread, hgroup, hasks, a, state, ha, hs, hnext⟩
  · exact (h.asked c hmem q hq).other ho
  · obtain rfl := Option.some.inj (hq.symm.trans hasks)
    rw [ha]
    exact open_begins c.thread q seen c.group
  · have hopen := h.asked d hd q (hasks.trans hq)
    rw [ha, hthread, hgroup] at hopen
    exact (hopen.parent h.recorded hs hnext).other (by simp [GroupSeen.thread?])

theorem Tracked.next (h : Tracked seen s) (hstep : s.step move = some (s', o)) : Tracked (seen ++ [o]) s' := by
  have hfollows := follows_step h.sound hstep
  have halters := hfollows.alters
  have hboth : Recorded (seen ++ [o]) s'.states ∧ Older (seen ++ [o]) s'.states.next := by
    cases o with
    | constructed thread group => exact recorded_constructed h halters
    | cancelled thread group => exact recorded_cancelled h halters
    | _ => exact ⟨h.recorded.quiet halters (by simp) (by simp), h.older.quiet halters.1 (by simp) (by simp)⟩
  refine ⟨(sound_step h.sound hstep).1, hboth.1, hboth.2, fun thread => ?_, fun c hc q hq => ?_,
    h.carried.next (carries_step h.sound hstep)⟩
  · rw [hfollows.onThreads thread, h.onThreads thread, bodies_concat]
  · rcases hfollows.pends c hc with hnone | hpends
    · rw [hnone] at hq
      cases hq
    · exact h.pends hpends hq

theorem tracked_start : Tracked [] {} where
  sound := sound_start
  recorded := ⟨fun group state hs => (by cases hs), fun group state hs => (by cases hs)⟩
  older group hgroup := by simp [Flagged] at hgroup
  onThreads thread := rfl
  asked := by simp
  carried before q after thread heq := by simp at heq

theorem tracked_run {moves : List GroupMove} (h : groupMachine.run {} moves = some (s, seen)) : Tracked seen s := by
  have hrun := Machine.run_invariant (fun _ seen s => Tracked seen s) [] []
    (fun _ _ _ _ _ _ hs hstep => hs.next hstep) tracked_start h
  simpa using hrun

/-- The step that showed something, taken from a state that its history tells. -/
theorem shown {moves : List GroupMove} {before after : List GroupSeen}
    (h : groupMachine.run {} moves = some (s, before ++ o :: after)) : ∃ t, Tracked before t ∧ t.Answers o := by
  obtain ⟨_, move, _, t, t', hbefore, hstep, -⟩ := Machine.run_output_eq_some h
  have htracked := tracked_run hbefore
  exact ⟨t, htracked, (follows_step htracked.sound hstep).answers⟩

/-- An answer is the one that the history gives to its question. -/
theorem Tracked.told (h : Tracked seen s) {q : GroupSeen} (hanswered : s.Answered thread q group result) :
    Told thread q seen group result := by
  obtain ⟨c, hc, rfl, rfl, hasks, a, state, ha, hs, hresult⟩ := hanswered
  have hopen := h.asked c hc q hasks
  have hwalk := h.sound.walks c hc
  rw [Call.uses, ha] at hwalk
  rw [ha] at hopen
  exact hopen.told h.recorded hwalk hs hresult

/-- Over every run of any number of threads, cancelling a group cancels exactly the groups nested in it. -/
theorem cancel_cascades {moves : List GroupMove} (h : groupMachine.run {} moves = some (s, seen)) :
    Cascades s seen where
  completed before q after thread heq hthread hopens hthrough := by
    rcases (tracked_run h).carried before q after thread heq hthread hopens with hdone | ⟨hquiet, c, hc, hsame, -⟩
    · exact hdone
    · rcases hthrough with hidle | ⟨o, ho, hsome⟩
      · exact absurd hsame (hidle c hc)
      · exact absurd hsome (hquiet o ho)
  asked before thread result after heq := by
    obtain ⟨t, ht, hanswers⟩ := shown (heq ▸ h)
    rw [← ht.current thread]
    exact hanswers.imp_right fun ⟨group, hg, hanswered⟩ => ⟨group, hg, ht.told hanswered⟩
  requested before thread group result after heq := by
    obtain ⟨t, ht, hanswered⟩ := shown (heq ▸ h)
    exact ht.told hanswered
  entered before thread group after heq := by
    obtain ⟨t, ht, isRunner, hc⟩ := shown (heq ▸ h)
    exact (ht.asked _ hc _ rfl).told_false
  skipped before thread group after heq := by
    obtain ⟨t, ht, hanswered⟩ := shown (heq ▸ h)
    exact ht.told hanswered

/-- A group is cancelled when the body of its job is about to begin, and inside of that body another group is made. -/
def cancelledOuter : List GroupMove :=
  [.construct 0, .call 0 0 .submitJob, .go 0, .go 0, .go 0, .call 0 0 .wait, .go 0, .go 0, .call 1 0 .cancel, .go 1,
    .go 0, .construct 0, .ask 0, .go 0, .call 0 1 .submitJob, .go 0, .go 0, .go 0, .call 0 1 .wait, .go 0, .go 0,
    .go 0, .go 0, .go 1, .leave 0, .go 0, .call 0 1 .isCancellationRequested, .go 0, .go 0]

theorem cancel_cascades_outer :
    ∃ s seen, groupMachine.run {} cancelledOuter = some (s, seen) ∧ Cascades s seen := by
  have hsome : (groupMachine.run {} cancelledOuter).isSome = true := by decide +kernel
  obtain ⟨⟨s, seen⟩, hrun⟩ := Option.isSome_iff_exists.mp hsome
  exact ⟨s, seen, hrun, cancel_cascades hrun⟩

end CJobGroups

end TgeCore.Threading
