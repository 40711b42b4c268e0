import TgeCore.Threading.GroupLifetime

namespace TgeCore.Threading
open Library

namespace CJobGroups
variable {s s' : CJobGroups} {thread group : Nat} {isRunner : Bool} {move : GroupMove} {o q : GroupSeen}
  {f : Frame} {c c' : Call} {states : Cells (Shared SState)} {state : Shared SState} {result : Bool}

/-- What is there in the second was there in the first, with the same parent and the same flag. -/
def Kept (states states' : Cells (Shared SState)) : Prop :=
  states'.next = states.next ∧ ∀ group state', states'.cell group = some state' →
    ∃ state, states.cell group = some state ∧ state.parent = state'.parent ∧
      state.value.cancelled = state'.value.cancelled

theorem Kept.refl (states : Cells (Shared SState)) : Kept states states :=
  ⟨rfl, fun _ state' h => ⟨state', h, rfl, rfl⟩⟩

/-- A change of what is pending. -/
theorem kept_change (states : Cells (Shared SState)) (group : Nat) (f : SState → SState)
    (hf : ∀ v, (f v).cancelled = v.cancelled) : Kept states (states.change group f) := by
  unfold Cells.change
  split
  · rename_i state hs
    refine ⟨rfl, fun other state' hs' => ?_⟩
    rcases (Cells.write_eq_some (Cells.lt_next hs)).mp hs' with ⟨rfl, rfl⟩ | ⟨-, hold⟩
    · exact ⟨state, hs, rfl, (hf state.value).symm⟩
    · exact ⟨state', hold, rfl, rfl⟩
  · exact Kept.refl states

theorem kept_share (states : Cells (Shared SState)) (group : Nat) : Kept states (states.share group) := by
  refine ⟨Cells.next_share states group, fun other state' hs' => ?_⟩
  obtain ⟨state, hs, hvalue, hparent⟩ := Cells.share_eq_some hs'
  exact ⟨state, hs, hparent, congrArg SState.cancelled hvalue⟩

theorem kept_drop (states : Cells (Shared SState)) (group : Nat) : Kept states (states.drop group) := by
  refine ⟨Cells.next_dropAt _ states group, fun other state' hs' => ?_⟩
  obtain ⟨state, hs, hvalue, hparent⟩ := Cells.dropAt_eq_some hs'
  exact ⟨state, hs, hparent, congrArg SState.cancelled hvalue⟩

/-- What a call asks about its group, while it does. -/
def Call.asks (call : Call) : Option GroupSeen :=
  match call.doing with
  | .checking _ _ | .starting _ => some (.popped call.thread call.group)
  | .requesting _ => some (.called call.thread call.group .isCancellationRequested)
  | .asking _ => some (.asking call.thread)
  | _ => none

/-- What a step makes of the states. -/
def Alters (s s' : CJobGroups) : GroupSeen → Prop
  | .constructed thread group => group = s.states.next ∧ s'.states.next = group + 1 ∧
      ∀ other state', s'.states.cell other = some state' →
        other = group ∧ state'.parent = s.tCurrent thread ∧ state'.value.cancelled = false ∨
        other ≠ group ∧ ∃ state, s.states.cell other = some state ∧ state.parent = state'.parent ∧
          state.value.cancelled = state'.value.cancelled
  | .cancelled _ group => group < s.states.next ∧ s'.states.next = s.states.next ∧
      ∀ other state', s'.states.cell other = some state' → ∃ state, s.states.cell other = some state ∧
        state.parent = state'.parent ∧ (state'.value.cancelled = true ↔ state.value.cancelled = true ∨ other = group)
  | _ => Kept s.states s'.states

/-- A thread's call is given the answer to its question. -/
def Answered (s : CJobGroups) (thread : Nat) (question : GroupSeen) (group : Nat) (result : Bool) : Prop :=
  ∃ c ∈ s.calls, c.thread = thread ∧ c.group = group ∧ c.asks = some question ∧
    ∃ a state, c.doing.ancestor? = some a ∧ s.states.cell a = some state ∧ isCancelled state = .inl result

/-- Where an answer that a step shows comes from. -/
def Answers (s : CJobGroups) : GroupSeen → Prop
  | .entered thread group => ∃ isRunner, ⟨thread, group, .starting isRunner⟩ ∈ s.calls
  | .skipped thread group => s.Answered thread (.popped thread group) group true
  | .requested thread group result =>
    s.Answered thread (.called thread group .isCancellationRequested) group result
  | .asked thread result => (s.tCurrent thread = none ∧ result = false) ∨
      ∃ group, s.tCurrent thread = some group ∧ s.Answered thread (.asking thread) group result
  | _ => True

/-- A call with a question stays as it is while its thread shows nothing, or has just asked it, or goes on to the
parent of the state that it was at, if there is one. -/
def Pends (s : CJobGroups) (o : GroupSeen) (c : Call) : Prop :=
  (c ∈ s.calls ∧ o.thread? ≠ some c.thread) ∨ (c.asks = some o ∧ c.doing.ancestor? = some c.group) ∨
    (o = .nothing ∧ ∃ d ∈ s.calls, d.thread = c.thread ∧ d.group = c.group ∧ d.asks = c.asks ∧
      ∃ a state, d.doing.ancestor? = some a ∧ s.states.cell a = some state ∧
        isCancelled state = (c.doing.ancestor?.map .inr).getD (.inl false))

/-- What a step does to the states, the bodies and the calls, and what it shows. -/
structure Follows (s s' : CJobGroups) (o : GroupSeen) : Prop where
  alters : Alters s s' o
  onThreads : ∀ thread, (s'.stack thread).map Frame.group = bodiesAfter thread ((s.stack thread).map Frame.group) o
  pends : ∀ c ∈ s'.calls, c.asks = none ∨ s.Pends o c
  answers : s.Answers o

theorem Follows.perm {calls : List Call} (h : Follows { s with calls := calls } s' o)
    (hcalls : ∀ c ∈ calls, c ∈ s.calls) : Follows s s' o where
  alters := by
    have halters := h.alters
    cases o <;> exact halters
  onThreads := h.onThreads
  pends c hc := by
    apply (h.pends c hc).imp_right
    intro hpends
    rcases hpends with ⟨hmem, ho⟩ | hbegins | ⟨ho, d, hd, hrest⟩
    · exact .inl ⟨hcalls c hmem, ho⟩
    · exact .inr (.inl hbegins)
    · exact .inr (.inr ⟨ho, d, hcalls d hd, hrest⟩)
  answers := by
    have hanswered : ∀ {thread q group result}, Answered { s with calls := calls } thread q group result →
        s.Answered thread q group result := by
      intro thread q group result hanswered
      obtain ⟨c, hc, hrest⟩ := hanswered
      exact ⟨c, hcalls c hc, hrest⟩
    have hanswers := h.answers
    cases o with
    | entered thread group => exact hanswers.imp fun _ hc => hcalls _ hc
    | skipped thread group => exact hanswered hanswers
    | requested thread group result => exact hanswered hanswers
    | asked thread result => exact hanswers.imp_right fun ⟨group, hg, ha⟩ => ⟨group, hg, hanswered ha⟩
    | _ => trivial

/-- A thread shows something. The calls of the others stay as they are. -/
theorem Idle.taken (hidle : s.Idle c.thread) (ho : ∀ t, o.thread? = some t → t = c.thread) :
    ∀ d ∈ s.calls, d ∈ c :: s.calls ∧ o.thread? ≠ some d.thread :=
  fun d hd => ⟨List.mem_cons_of_mem c hd, fun heq => hidle d hd (ho _ heq)⟩

theorem Idle.others (hidle : s.Idle thread) (ho : ∀ t, o.thread? = some t → t = thread) :
    ∀ d ∈ s.calls, d ∈ s.calls ∧ o.thread? ≠ some d.thread :=
  fun d hd => ⟨hd, fun heq => hidle d hd (ho _ heq)⟩

theorem thread_nothing (thread : Nat) : ∀ t, GroupSeen.thread? .nothing = some t → t = thread := by
  simp [GroupSeen.thread?]

/-- A step by which no body begins or ends. -/
theorem follows_quiet {rest : List Call} (hrest : ∀ d ∈ rest, d ∈ s.calls ∧ o.thread? ≠ some d.thread)
    (halters : Alters s s' o) (hframes : s'.frames = s.frames)
    (hbodies : ∀ thread stack, bodiesAfter thread stack o = stack)
    (hcalls : ∀ d ∈ s'.calls, d ∈ rest ∨ d.asks = none ∨ s.Pends o d) (hanswers : s.Answers o) : Follows s s' o where
  alters := halters
  onThreads thread := by rw [hbodies, stack, hframes, stack]
  pends d hd := by
    rcases hcalls d hd with hd | hd
    · exact .inr (.inl (hrest d hd))
    · exact hd
  answers := hanswers

/-- A call goes on with something that asks nothing. -/
theorem mem_goOn {doing : Doing} (hdoing : Call.asks { c with doing := doing } = none)
    (hc : c' ∈ (s.goOn c doing).calls) : c' ∈ s.calls ∨ c'.asks = none := by
  rcases List.mem_cons.mp hc with rfl | hc
  · exact .inr hdoing
  · exact .inl hc

theorem mem_finish (hc : c' ∈ (s.finish c isRunner).calls) : c' ∈ s.calls ∨ c'.asks = none := by
  cases isRunner with
  | false => exact .inl hc
  | true => exact mem_goOn rfl hc

theorem finish_same (s : CJobGroups) (c : Call) (isRunner : Bool) :
    (s.finish c isRunner).states = s.states ∧ (s.finish c isRunner).frames = s.frames := by
  cases isRunner <;> exact ⟨rfl, rfl⟩

theorem follows_finish (hidle : s.Idle c.thread) :
    Follows { s with calls := c :: s.calls } (s.finish c isRunner) .nothing := by
  obtain ⟨hstates, hframes⟩ := finish_same s c isRunner
  refine follows_quiet (hidle.taken (thread_nothing _)) ?_ hframes (fun _ _ => rfl) ?_ trivial
  · show Kept s.states (s.finish c isRunner).states
    exact hstates ▸ Kept.refl s.states
  · intro d hd
    exact (mem_finish hd).imp_right .inl

/-- A call asks the parent next, or none when there is none. -/
theorem follows_ask_parent {doing : Doing} {a : Nat} (hidle : s.Idle c.thread) (ha : c.doing.ancestor? = some a)
    (hs : s.states.cell a = some state) (hasks : Call.asks { c with doing := doing } = c.asks)
    (hnext : isCancelled state = (doing.ancestor?.map .inr).getD (.inl false)) :
    Follows { s with calls := c :: s.calls } (s.goOn c doing) .nothing := by
  refine follows_quiet (hidle.taken (thread_nothing _)) (Kept.refl s.states) rfl (fun _ _ => rfl) ?_ trivial
  intro d hd
  rcases List.mem_cons.mp hd with rfl | hd
  · exact .inr (.inr (.inr (.inr ⟨rfl, c, List.mem_cons_self, rfl, rfl, hasks.symm, a, state, ha, hs, hnext⟩)))
  · exact .inl hd

/-- A call with nothing to ask goes on, and at most what is pending changes. -/
theorem follows_goOn {doing : Doing} (hidle : s.Idle c.thread) (hkept : Kept s.states states)
    (hasks : Call.asks { c with doing := doing } = none) :
    Follows { s with calls := c :: s.calls } (goOn { s with states := states } c doing) .nothing := by
  refine follows_quiet (hidle.taken (thread_nothing _)) hkept rfl (fun _ _ => rfl) ?_ trivial
  intro d hd
  exact (mem_goOn hasks hd).imp_right .inl

theorem follows_pop (hidle : s.Idle thread) :
    Follows { s with calls := ⟨thread, group, .popping isRunner⟩ :: s.calls }
      (s.pop ⟨thread, group, .popping isRunner⟩ state isRunner).1
      (s.pop ⟨thread, group, .popping isRunner⟩ state isRunner).2 := by
  unfold CJobGroups.pop
  split
  · exact follows_finish hidle
  · have hkept := kept_change s.states group (fun v => { v with pending := v.pending - 1 }) fun _ => rfl
    refine follows_quiet (hidle.taken (by simp [GroupSeen.thread?])) hkept rfl (fun _ _ => rfl) ?_ trivial
    intro d hd
    rcases List.mem_cons.mp hd with rfl | hd
    · exact .inr (.inr (.inr (.inl ⟨rfl, rfl⟩)))
    · exact .inl hd

theorem follows_checked {a : Nat} (hidle : s.Idle thread) (hs : s.states.cell a = some state)
    (hresult : isCancelled state = .inl result) :
    Follows { s with calls := ⟨thread, group, .checking isRunner a⟩ :: s.calls }
      (s.checked ⟨thread, group, .checking isRunner a⟩ isRunner result).1
      (s.checked ⟨thread, group, .checking isRunner a⟩ isRunner result).2 := by
  cases result with
  | true =>
    refine follows_quiet (hidle.taken (by simp [checked, GroupSeen.thread?])) (Kept.refl s.states) rfl
      (fun _ _ => rfl) ?_ ⟨_, List.mem_cons_self, rfl, rfl, rfl, a, state, rfl, hs, hresult⟩
    intro d hd
    exact (mem_goOn rfl hd).imp_right .inl
  | false => exact follows_ask_parent hidle rfl hs rfl hresult

theorem follows_execute (hidle : s.Idle thread) :
    Follows { s with calls := ⟨thread, group, .starting isRunner⟩ :: s.calls }
      (s.execute ⟨thread, group, .starting isRunner⟩ isRunner).1 (.entered thread group) := by
  refine ⟨Kept.refl s.states, fun other => ?_, fun d hd => ?_, isRunner, List.mem_cons_self⟩
  · by_cases hother : thread = other
    · simp [execute, stack, bodiesAfter, hother]
    · simp [execute, stack, bodiesAfter, hother]
  · refine .inr (.inl ⟨List.mem_cons_of_mem _ hd, ?_⟩)
    simp only [GroupSeen.thread?, ne_eq, Option.some.injEq]
    exact (hidle d hd).symm

theorem follows_flag (hidle : s.Idle thread) (hs : s.states.cell group = some state) :
    Follows { s with calls := ⟨thread, group, .flagging⟩ :: s.calls }
      (goOn { s with states := s.states.change group fun v => { v with cancelled := true } }
        ⟨thread, group, .flagging⟩ .dropping) (.cancelled thread group) := by
  refine follows_quiet (hidle.taken (by simp [GroupSeen.thread?])) ?_ rfl (fun _ _ => rfl) ?_ trivial
  · refine ⟨Cells.lt_next hs, ?_, fun other state' hs' => ?_⟩
    · simp [goOn, Cells.change, hs, Cells.write]
    · simp only [goOn, Cells.change, hs] at hs'
      rcases (Cells.write_eq_some (Cells.lt_next hs)).mp hs' with ⟨rfl, rfl⟩ | ⟨hne, hold⟩
      · exact ⟨state, hs, rfl, by simp⟩
      · exact ⟨state', hold, rfl, by simp [hne]⟩
  · intro d hd
    exact (mem_goOn rfl hd).imp_right .inl

/-- A step of a call that its thread is in. -/
theorem follows_advance (hidle : s.Idle c.thread) (hs : s.states.cell c.uses = some state)
    (hcurrent : ∀ a, c.doing = .asking a → s.tCurrent c.thread = some c.group) :
    Follows { s with calls := c :: s.calls } (s.advance c state).1 (s.advance c state).2 := by
  obtain ⟨thread, group, doing⟩ := c
  have hothers : ∀ d ∈ s.calls, d ∈ ⟨thread, group, doing⟩ :: s.calls ∧ GroupSeen.thread? .nothing ≠ some d.thread :=
    hidle.taken (thread_nothing _)
  cases doing with
  | popping isRunner => exact follows_pop hidle
  | checking isRunner a =>
    simp only [CJobGroups.advance]
    split
    · rename_i hresult
      exact follows_checked hidle hs hresult
    · rename_i hparent
      exact follows_ask_parent hidle rfl hs rfl hparent
  | starting isRunner => exact follows_execute hidle
  | settling isRunner => exact follows_finish hidle
  | releasing =>
    exact follows_quiet hothers (kept_drop s.states group) rfl (fun _ _ => rfl) (fun d hd => .inl hd) trivial
  | counting => exact follows_goOn hidle (Kept.refl s.states) rfl
  | pushing => exact follows_goOn hidle (kept_change s.states group _ fun _ => rfl) rfl
  | queueing =>
    exact follows_quiet hothers (kept_share s.states group) rfl (fun _ _ => rfl) (fun d hd => .inl hd) trivial
  | flagging => exact follows_flag hidle hs
  | dropping =>
    simp only [CJobGroups.advance]
    split
    · exact follows_quiet hothers (Kept.refl s.states) rfl (fun _ _ => rfl) (fun d hd => .inl hd) trivial
    · exact follows_goOn hidle (kept_change s.states group _ fun _ => rfl) rfl
  | requesting a =>
    simp only [CJobGroups.advance]
    split
    · rename_i result hresult
      refine follows_quiet (hidle.taken (by simp [GroupSeen.thread?])) (Kept.refl s.states) rfl (fun _ _ => rfl)
        (fun d hd => .inl hd) ?_
      exact ⟨_, List.mem_cons_self, rfl, rfl, rfl, a, state, rfl, hs, hresult⟩
    · rename_i hparent
      exact follows_ask_parent hidle rfl hs rfl hparent
  | asking a =>
    simp only [CJobGroups.advance]
    split
    · rename_i result hresult
      refine follows_quiet (hidle.taken (by simp [GroupSeen.thread?])) (Kept.refl s.states) rfl (fun _ _ => rfl)
        (fun d hd => .inl hd) (.inr ⟨group, hcurrent a rfl, ?_⟩)
      exact ⟨_, List.mem_cons_self, rfl, rfl, rfl, a, state, rfl, hs, hresult⟩
    · rename_i hparent
      exact follows_ask_parent hidle rfl hs rfl hparent

theorem follows_construct (hidle : s.Idle thread) : Follows s (s.construct thread).1 (s.construct thread).2 := by
  unfold construct
  split
  · refine follows_quiet (hidle.others (by simp [GroupSeen.thread?])) ⟨rfl, Cells.next_make _ _ _, ?_⟩ rfl
      (fun _ _ => rfl) (fun d hd => .inl hd) trivial
    intro other state' hs'
    rcases Cells.make_eq_some hs' with ⟨rfl, hvalue, hparent⟩ | ⟨hne, state, hs, hvalue, hparent⟩
    · exact .inl ⟨rfl, hparent, by rw [hvalue]⟩
    · exact .inr ⟨hne, state, hs, hparent, congrArg SState.cancelled hvalue⟩
  · exact follows_quiet (hidle.others (by simp [GroupSeen.thread?])) (Kept.refl s.states) rfl (fun _ _ => rfl)
      (fun d hd => .inl hd) trivial

theorem follows_leave (hidle : s.Idle thread) (hf : (s.frames.find? fun f => f.thread = thread) = some f) :
    Follows s (s.leave f).1 (s.leave f).2 := by
  obtain ⟨rfl, -, hstack, hothers⟩ := split_frames hf
  refine ⟨Kept.refl s.states, fun other => ?_, fun d hd => ?_, trivial⟩
  · simp only [CJobGroups.leave, bodiesAfter]
    by_cases hother : f.thread = other
    · subst hother
      rw [if_pos rfl, hstack]
      rfl
    · rw [if_neg hother, ← hothers other (Ne.symm hother)]
      rfl
  · rcases List.mem_cons.mp hd with rfl | hd
    · exact .inl rfl
    · refine .inr (.inl ⟨hd, ?_⟩)
      simp only [CJobGroups.leave, GroupSeen.thread?, ne_eq, Option.some.injEq]
      exact (hidle d hd).symm

/-- A thread that is in no call begins one. -/
theorem follows_begin (hidle : s.Idle c.thread) (hthread : o.thread? = none ∨ o.thread? = some c.thread)
    (halters : Alters s { s with calls := c :: s.calls } o)
    (hbodies : ∀ thread stack, bodiesAfter thread stack o = stack)
    (hasks : c.asks = none ∨ c.asks = some o ∧ c.doing.ancestor? = some c.group) (hanswers : s.Answers o) :
    Follows s { s with calls := c :: s.calls } o := by
  refine follows_quiet (hidle.others fun t ht => ?_) halters rfl hbodies (fun d hd => ?_) hanswers
  · rcases hthread with hnone | hsome
    · rw [hnone] at ht
      cases ht
    · exact Option.some.inj (ht.symm.trans hsome)
  · rcases List.mem_cons.mp hd with rfl | hd
    · exact .inr (hasks.imp_right fun h => .inr (.inl h))
    · exact .inl hd

/-- The thread of a call is in no other one. -/
theorem idle_taken (hsound : s.Sound) (hc : (s.calls.find? fun call => call.thread = thread) = some c) :
    Idle { s with calls := s.calls.erase c } c.thread := by
  obtain ⟨-, -, htaken⟩ := hsound.take hc
  intro d hd hsame
  exact (List.nodup_cons.mp htaken.single).1 (List.mem_map.mpr ⟨d, hd, hsame⟩)

theorem follows_step (hsound : s.Sound) (hstep : s.step move = some (s', o)) : Follows s s' o := by
  have hnothing : ∀ d ∈ s.calls, d ∈ s.calls ∧ GroupSeen.thread? .nothing ≠ some d.thread :=
    fun d hd => ⟨hd, by simp [GroupSeen.thread?]⟩
  cases step_does hstep with
  | construct thread hidle => exact follows_construct hidle
  | destroy group hg hunused =>
    exact follows_quiet hnothing (kept_drop s.states group) rfl (fun _ _ => rfl) (fun d hd => .inl hd) trivial
  | call thread group method hg hidle =>
    refine follows_begin hidle (.inr rfl) (Kept.refl s.states) (fun _ _ => rfl) ?_ trivial
    cases method with
    | isCancellationRequested => exact .inr ⟨rfl, rfl⟩
    | _ => exact .inl rfl
  | askNone thread hidle hnone =>
    exact follows_quiet (hidle.others (by simp [GroupSeen.thread?])) (Kept.refl s.states) rfl (fun _ _ => rfl)
      (fun d hd => .inl hd) (.inl ⟨hnone, rfl⟩)
  | ask thread group hidle hg =>
    exact follows_begin hidle (.inr rfl) (Kept.refl s.states) (fun _ _ => rfl) (.inr ⟨rfl, rfl⟩) trivial
  | work thread group hg hidle =>
    refine follows_quiet hnothing (Kept.refl s.states) rfl (fun _ _ => rfl) (fun d hd => ?_) trivial
    rcases List.mem_cons.mp hd with rfl | hd
    · exact .inr (.inl rfl)
    · exact .inl hd
  | discard group hg =>
    exact follows_quiet hnothing (Kept.refl s.states) rfl (fun _ _ => rfl) (fun d hd => .inl hd) trivial
  | freed thread c hc hs => exact absurd rfl (sound_step hsound hstep).2
  | go thread c state hc hs =>
    have hmem := (hsound.take hc).2.1
    have hfollows := follows_advance (idle_taken hsound hc) hs (hsound.currents c hmem)
    exact Follows.perm (s := s) hfollows fun d hd => (List.perm_cons_erase hmem).mem_iff.mpr hd
  | leave thread f hidle hf => exact follows_leave hidle hf

/-- What a call has shown last and is to complete. -/
def Call.shown (call : Call) : Option GroupSeen :=
  match call.doing with
  | .flagging => some (.called call.thread call.group .cancel)
  | _ => call.asks

theorem thread_advance (s : CJobGroups) (c : Call) (state : Shared SState) :
    (s.advance c state).2.thread? = none ∨ (s.advance c state).2.thread? = some c.thread := by
  unfold advance
  split
  · unfold pop
    split <;> simp [GroupSeen.thread?]
  · split
    · rename_i result _
      cases result <;> simp [checked, GroupSeen.thread?]
    · simp [GroupSeen.thread?]
  · simp [execute, GroupSeen.thread?]
  all_goals first | (split <;> simp [GroupSeen.thread?]) | simp [GroupSeen.thread?]

/-- The calls of the other threads stay. -/
theorem mem_advance (hc : c' ∈ s.calls) : c' ∈ (s.advance c state).1.calls := by
  have hon : ∀ (t : CJobGroups) (doing : Doing), t.calls = s.calls → c' ∈ (t.goOn c doing).calls := by
    intro t doing heq
    exact List.mem_cons_of_mem _ (heq ▸ hc)
  have hfinish : ∀ isRunner, c' ∈ (s.finish c isRunner).calls := by
    intro isRunner
    cases isRunner with
    | false => exact hc
    | true => exact hon s .releasing rfl
  obtain ⟨thread, group, doing⟩ := c
  cases doing with
  | popping isRunner =>
    simp only [advance, pop]
    split
    · exact hfinish isRunner
    · exact hon _ _ rfl
  | checking isRunner a =>
    simp only [advance]
    split
    · rename_i result _
      cases result <;> exact hon s _ rfl
    · exact hon s _ rfl
  | starting isRunner => exact hc
  | settling isRunner => exact hfinish isRunner
  | releasing => exact hc
  | counting => exact hon s _ rfl
  | pushing => exact hon _ _ rfl
  | queueing => exact hc
  | flagging => exact hon _ _ rfl
  | dropping =>
    simp only [advance]
    split
    · exact hc
    · exact hon _ _ rfl
  | requesting a =>
    simp only [advance]
    split
    · exact hc
    · exact hon s _ rfl
  | asking a =>
    simp only [advance]
    split
    · exact hc
    · exact hon s _ rfl

/-- A call completes what it has shown, or is on its way there. -/
theorem advance_completes (hshown : c.shown = some q) :
    Completes q (s.advance c state).2 ∨ (s.advance c state).2.thread? = none ∧
      ∃ c' ∈ (s.advance c state).1.calls, c'.thread = c.thread ∧ c'.shown = some q := by
  obtain ⟨thread, group, doing⟩ := c
  cases doing with
  | checking isRunner a =>
    obtain rfl := Option.some.inj hshown
    simp only [advance]
    split
    · rename_i result _
      cases result with
      | true => exact .inl (.inr rfl)
      | false => exact .inr ⟨rfl, _, List.mem_cons_self, rfl, rfl⟩
    · exact .inr ⟨rfl, _, List.mem_cons_self, rfl, rfl⟩
  | starting isRunner =>
    obtain rfl := Option.some.inj hshown
    exact .inl (.inl rfl)
  | flagging =>
    obtain rfl := Option.some.inj hshown
    exact .inl rfl
  | requesting a =>
    obtain rfl := Option.some.inj hshown
    simp only [advance]
    split
    · exact .inl ⟨_, rfl⟩
    · exact .inr ⟨rfl, _, List.mem_cons_self, rfl, rfl⟩
  | asking a =>
    obtain rfl := Option.some.inj hshown
    simp only [advance]
    split
    · exact .inl ⟨_, rfl⟩
    · exact .inr ⟨rfl, _, List.mem_cons_self, rfl, rfl⟩
  | _ => cases hshown

/-- In the course of a call only a popped job is to be completed. -/
theorem shown_advance (hopens : ∃ p, Completes (s.advance c state).2 p) :
    ∃ c' ∈ (s.advance c state).1.calls,
      (s.advance c state).2.thread? = some c'.thread ∧ c'.shown = some (s.advance c state).2 := by
  obtain ⟨thread, group, doing⟩ := c
  cases doing with
  | popping isRunner =>
    simp only [advance, pop] at hopens ⊢
    split at hopens
    · simp [Completes] at hopens
    · rename_i hsome
      rw [if_neg hsome]
      exact ⟨_, List.mem_cons_self, rfl, rfl⟩
  | checking isRunner a =>
    simp only [advance] at hopens
    split at hopens
    · rename_i result _
      cases result <;> simp [checked, Completes] at hopens
    · simp [Completes] at hopens
  | dropping =>
    simp only [advance] at hopens
    split at hopens <;> simp [Completes] at hopens
  | requesting a =>
    simp only [advance] at hopens
    split at hopens <;> simp [Completes] at hopens
  | asking a =>
    simp only [advance] at hopens
    split at hopens <;> simp [Completes] at hopens
  | _ => simp [advance, execute, Completes] at hopens

/-- A call stays while others step. While its thread steps it completes what it has shown or is on its way there. What
is to be completed is shown by a call. -/
structure Carries (s s' : CJobGroups) (o : GroupSeen) : Prop where
  stays : ∀ c ∈ s.calls, ∀ q, c.shown = some q →
    Completes q o ∨ o.thread? ≠ some c.thread ∧ ∃ c' ∈ s'.calls, c'.thread = c.thread ∧ c'.shown = some q
  shows : (∃ p, Completes o p) → ∃ c ∈ s'.calls, o.thread? = some c.thread ∧ c.shown = some o

/-- A step that is not one of a call. -/
theorem carries_others (hothers : ∀ c ∈ s.calls, c ∈ s.calls ∧ o.thread? ≠ some c.thread)
    (hcalls : ∀ c ∈ s.calls, c ∈ s'.calls)
    (hshows : (∃ p, Completes o p) → ∃ c ∈ s'.calls, o.thread? = some c.thread ∧ c.shown = some o) :
    Carries s s' o where
  stays c hc _ hshown := .inr ⟨(hothers c hc).2, c, hcalls c hc, rfl, hshown⟩
  shows := hshows

theorem carries_advance (hidle : s.Idle c.thread) (state : Shared SState) :
    Carries { s with calls := c :: s.calls } (s.advance c state).1 (s.advance c state).2 where
  stays d hd q hshown := by
    rcases List.mem_cons.mp hd with rfl | hd
    · apply (advance_completes hshown).imp_right
      intro hon
      exact ⟨by simp [hon.1], hon.2⟩
    · refine .inr ⟨?_, d, mem_advance hd, rfl, hshown⟩
      rcases thread_advance s c state with hnone | hsome
      · simp [hnone]
      · simpa [hsome] using (hidle d hd).symm
  shows := shown_advance

theorem carries_step (hsound : s.Sound) (hstep : s.step move = some (s', o)) : Carries s s' o := by
  have hnothing : ∀ d ∈ s.calls, d ∈ s.calls ∧ GroupSeen.thread? .nothing ≠ some d.thread :=
    fun d hd => ⟨hd, by simp [GroupSeen.thread?]⟩
  cases step_does hstep with
  | construct thread hidle =>
    unfold construct
    split
    · exact carries_others (hidle.others (by simp [GroupSeen.thread?])) (fun _ hd => hd) (by simp [Completes])
    · exact carries_others (hidle.others (by simp [GroupSeen.thread?])) (fun _ hd => hd) (by simp [Completes])
  | destroy group hg hunused => exact carries_others hnothing (fun _ hd => hd) (by simp [Completes])
  | call thread group method hg hidle =>
    refine carries_others (hidle.others (by simp [GroupSeen.thread?])) (fun _ hd => List.mem_cons_of_mem _ hd) ?_
    intro hopens
    refine ⟨_, List.mem_cons_self, rfl, ?_⟩
    cases method with
    | submitJob => simp [Completes] at hopens
    | wait => simp [Completes] at hopens
    | cancel => rfl
    | isCancellationRequested => rfl
  | askNone thread hidle hnone =>
    exact carries_others (hidle.others (by simp [GroupSeen.thread?])) (fun _ hd => hd) (by simp [Completes])
  | ask thread group hidle hg =>
    exact carries_others (hidle.others (by simp [GroupSeen.thread?])) (fun _ hd => List.mem_cons_of_mem _ hd)
      fun _ => ⟨_, List.mem_cons_self, rfl, rfl⟩
  | work thread group hg hidle =>
    exact carries_others hnothing (fun _ hd => List.mem_cons_of_mem _ hd) (by simp [Completes])
  | discard group hg => exact carries_others hnothing (fun _ hd => hd) (by simp [Completes])
  | freed thread c hc hs => exact absurd rfl (sound_step hsound hstep).2
  | go thread c state hc hs =>
    have hmem := (hsound.take hc).2.1
    have hcarries := carries_advance (idle_taken hsound hc) state
    exact ⟨fun d hd => hcarries.stays d ((List.perm_cons_erase hmem).mem_iff.mp hd), hcarries.shows⟩
  | leave thread f hidle hf =>
    obtain ⟨rfl, -⟩ := split_frames hf
    exact carries_others (hidle.others (by simp [CJobGroups.leave, GroupSeen.thread?]))
      (fun _ hd => List.mem_cons_of_mem _ hd) (by simp [CJobGroups.leave, Completes])

end CJobGroups

end TgeCore.Threading
