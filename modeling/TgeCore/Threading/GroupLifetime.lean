import TgeCore.Threading.GroupNesting

namespace TgeCore.Threading
open Library

namespace CJobGroups
variable {s s' : CJobGroups} {thread group : Nat} {move : GroupMove} {o : GroupSeen} {f : Frame} {c : Call}
  {doing : Doing} {calls : List Call} {states states' : Cells (Shared SState)} {roots : List Nat}
  {state : Shared SState}

/-- What a step is. Only a call that goes on, or a constructor, can come upon a state that is freed. -/
inductive Does (s : CJobGroups) : GroupMove → CJobGroups → GroupSeen → Prop
  | construct (thread : Nat) (hidle : s.Idle thread) :
    Does s (.construct thread) (s.construct thread).1 (s.construct thread).2
  | destroy (group : Nat) (hg : group ∈ s.handles) (hunused : s.Unused group) :
    Does s (.destroy group) { s with states := s.states.drop group, handles := s.handles.erase group } .nothing
  | call (thread group : Nat) (method : Method) (hg : group ∈ s.handles) (hidle : s.Idle thread) :
    Does s (.call thread group method) { s with calls := ⟨thread, group, method.begins group⟩ :: s.calls }
      (.called thread group method)
  | askNone (thread : Nat) (hidle : s.Idle thread) (hnone : s.tCurrent thread = none) :
    Does s (.ask thread) s (.asked thread false)
  | ask (thread group : Nat) (hidle : s.Idle thread) (hg : s.tCurrent thread = some group) :
    Does s (.ask thread) { s with calls := ⟨thread, group, .asking group⟩ :: s.calls } (.asking thread)
  | work (thread group : Nat) (hg : group ∈ s.runners) (hidle : s.Idle thread) :
    Does s (.work thread group)
      { s with runners := s.runners.erase group, calls := ⟨thread, group, .popping true⟩ :: s.calls } .nothing
  | discard (group : Nat) (hg : group ∈ s.runners) :
    Does s (.discard group) { s with runners := s.runners.erase group, leaked := group :: s.leaked } .nothing
  | freed (thread : Nat) (c : Call) (hc : (s.calls.find? fun call => call.thread = thread) = some c)
    (hs : s.states.cell c.uses = none) : Does s (.go thread) s .fault
  | go (thread : Nat) (c : Call) (state : Shared SState)
    (hc : (s.calls.find? fun call => call.thread = thread) = some c) (hs : s.states.cell c.uses = some state) :
    Does s (.go thread) (advance { s with calls := s.calls.erase c } c state).1
      (advance { s with calls := s.calls.erase c } c state).2
  | leave (thread : Nat) (f : Frame) (hidle : s.Idle thread)
    (hf : (s.frames.find? fun f => f.thread = thread) = some f) :
    Does s (.leave thread) (s.leave f).1 (s.leave f).2

theorem step_does (hstep : s.step move = some (s', o)) : s.Does move s' o := by
  cases move with
  | construct thread =>
    obtain ⟨hidle, heq⟩ := Option.ite_none_right_eq_some.mp hstep
    obtain ⟨rfl, rfl⟩ := Prod.ext_iff.mp (Option.some.inj heq)
    exact .construct thread hidle
  | destroy group =>
    obtain ⟨⟨hg, hunused⟩, heq⟩ := Option.ite_none_right_eq_some.mp hstep
    obtain ⟨rfl, rfl⟩ := Prod.mk.inj (Option.some.inj heq)
    exact .destroy group hg hunused
  | call thread group method =>
    obtain ⟨⟨hg, hidle⟩, heq⟩ := Option.ite_none_right_eq_some.mp hstep
    obtain ⟨rfl, rfl⟩ := Prod.mk.inj (Option.some.inj heq)
    exact .call thread group method hg hidle
  | ask thread =>
    obtain ⟨hidle, heq⟩ := Option.ite_none_right_eq_some.mp hstep
    split at heq
    · rename_i hnone
      obtain ⟨rfl, rfl⟩ := Prod.mk.inj (Option.some.inj heq)
      exact .askNone thread hidle hnone
    · rename_i group hg
      obtain ⟨rfl, rfl⟩ := Prod.mk.inj (Option.some.inj heq)
      exact .ask thread group hidle hg
  | work thread group =>
    obtain ⟨⟨hg, hidle, -⟩, heq⟩ := Option.ite_none_right_eq_some.mp hstep
    obtain ⟨rfl, rfl⟩ := Prod.mk.inj (Option.some.inj heq)
    exact .work thread group hg hidle
  | discard group =>
    obtain ⟨hg, heq⟩ := Option.ite_none_right_eq_some.mp hstep
    obtain ⟨rfl, rfl⟩ := Prod.mk.inj (Option.some.inj heq)
    exact .discard group hg
  | go thread =>
    obtain ⟨c, hc, heq⟩ := Option.map_eq_some_iff.mp hstep
    cases hs : s.states.cell c.uses with
    | none =>
      rw [hs] at heq
      obtain ⟨rfl, rfl⟩ := Prod.mk.inj heq
      exact .freed thread c hc hs
    | some state =>
      rw [hs] at heq
      obtain ⟨rfl, rfl⟩ := Prod.ext_iff.mp heq
      exact .go thread c state hc hs
  | leave thread =>
    obtain ⟨hidle, heq⟩ := Option.ite_none_right_eq_some.mp hstep
    obtain ⟨f, hf, hleave⟩ := Option.map_eq_some_iff.mp heq
    obtain ⟨rfl, rfl⟩ := Prod.ext_iff.mp hleave
    exact .leave thread f hidle hf

/-- The bodies on one thread, the innermost first. -/
def stack (s : CJobGroups) (thread : Nat) : List Frame := s.frames.filter fun f => f.thread = thread

/-- tCurrent is the group of the innermost body, and each body knows the group of the one outside of it. -/
def Stacked : List Frame → Option Nat → Prop
  | [], current => current = none
  | f :: rest, current => current = some f.group ∧ Stacked rest f.prev

/-- Every count is right, and every body's and every call's group is kept: by its runner, by the object it is called
through or, for a question about tCurrent, by the body around it. A thread is in one call at most. -/
structure Placed (s : CJobGroups) : Prop where
  balanced : s.states.Balanced s.roots
  inline : ∀ f ∈ s.frames, f.isRunner = false → f.group ∈ s.handles
  objects : ∀ c ∈ s.calls, c.doing.usesObject = true → c.group ∈ s.handles
  currents : ∀ c ∈ s.calls, ∀ a, c.doing = .asking a → s.tCurrent c.thread = some c.group
  single : (s.calls.map Call.thread).Nodup
  nodup : s.handles.Nodup
  stacked : ∀ thread, Stacked (s.stack thread) (s.tCurrent thread)

/-- Up from the group of a call one comes to the state that the call uses. -/
structure Sound (s : CJobGroups) : Prop extends Placed s where
  walks : ∀ c ∈ s.calls, Relation.ReflTransGen s.states.Links c.group c.uses

theorem sound_start : Sound {} where
  balanced := Cells.balanced_empty
  inline := by simp
  objects := by simp
  currents := by simp
  single := List.nodup_nil
  nodup := List.nodup_nil
  stacked _ := rfl
  walks := by simp

theorem mem_ownRef : group ∈ ownRef group true := List.mem_singleton_self group

theorem Placed.alive_of_handle (h : s.Placed) (hg : group ∈ s.handles) : (s.states.cell group).isSome :=
  h.balanced.held group (List.mem_append_left _ hg)

theorem Placed.alive_of_frame (h : s.Placed) (hf : f ∈ s.frames) : (s.states.cell f.group).isSome := by
  cases hr : f.isRunner with
  | false => exact h.alive_of_handle (h.inline f hf hr)
  | true =>
    apply h.balanced.held
    have hmem : f.group ∈ s.frames.flatMap fun frame => ownRef frame.group frame.isRunner :=
      List.mem_flatMap.mpr ⟨f, hf, hr ▸ mem_ownRef⟩
    simp only [CJobGroups.roots, List.mem_append]
    exact .inr (.inr (.inr (.inl hmem)))

theorem Stacked.head {frames : List Frame} {current : Option Nat} (h : Stacked frames current) :
    current = (frames.map Frame.group).head? := by
  cases frames with
  | nil => exact h
  | cons f rest => exact h.1

theorem Placed.alive_of_current (h : s.Placed) (hg : s.tCurrent thread = some group) :
    (s.states.cell group).isSome := by
  have hhead := (h.stacked thread).head
  rw [hg] at hhead
  obtain ⟨f, hf, rfl⟩ := List.mem_map.mp (List.mem_of_head? hhead.symm)
  exact h.alive_of_frame (List.mem_filter.mp hf).1

/-- What a call is made with. -/
theorem kept_by (doing : Doing) : doing.isRunner = true ∨ doing.usesObject = true ∨ ∃ a, doing = .asking a := by
  cases doing with
  | popping isRunner => cases isRunner <;> simp [Doing.isRunner, Doing.usesObject]
  | checking isRunner a => cases isRunner <;> simp [Doing.isRunner, Doing.usesObject]
  | starting isRunner => cases isRunner <;> simp [Doing.isRunner, Doing.usesObject]
  | settling isRunner => cases isRunner <;> simp [Doing.isRunner, Doing.usesObject]
  | releasing => exact .inl rfl
  | asking a => exact .inr (.inr ⟨a, rfl⟩)
  | _ => exact .inr (.inl rfl)

theorem Placed.alive_of_call (h : s.Placed) (hc : c ∈ s.calls) : (s.states.cell c.group).isSome := by
  rcases kept_by c.doing with hr | ho | ⟨a, ha⟩
  · apply h.balanced.held
    have hmem : c.group ∈ s.calls.flatMap fun call => ownRef call.group call.doing.isRunner :=
      List.mem_flatMap.mpr ⟨c, hc, hr ▸ mem_ownRef⟩
    simp only [CJobGroups.roots, List.mem_append]
    exact .inr (.inr (.inr (.inr hmem)))
  · exact h.alive_of_handle (h.objects c hc ho)
  · exact h.alive_of_current (h.currents c hc a ha)

theorem Sound.alive_of_uses (h : s.Sound) (hc : c ∈ s.calls) : (s.states.cell c.uses).isSome :=
  h.balanced.isSome_of_links (h.alive_of_call hc) (h.walks c hc)

theorem parent_of_isCancelled {parent : Nat} (h : isCancelled state = .inr parent) : state.parent = some parent := by
  unfold isCancelled at h
  split at h
  · cases h
  · split at h
    · cases h
    · rename_i p hp
      rw [hp, Sum.inr.inj h]

/-- What is there before and after has the same parent. -/
def SameParents (states states' : Cells (Shared SState)) : Prop :=
  ∀ group state state', states.cell group = some state → states'.cell group = some state' →
    state'.parent = state.parent

/-- From a state that stays one comes to the same states as before, and they stay. -/
theorem links_kept (h : states'.Balanced roots) (hsame : SameParents states states') (hg : (states'.cell group).isSome)
    {a : Nat} (hpath : Relation.ReflTransGen states.Links group a) : Relation.ReflTransGen states'.Links group a := by
  induction hpath with
  | refl => exact .refl
  | tail _ hlast ih =>
    obtain ⟨state, hs, hparent⟩ := hlast
    obtain ⟨state', hs'⟩ := Option.isSome_iff_exists.mp (h.isSome_of_links hg ih)
    exact ih.tail ⟨state', hs', (hsame _ state state' hs hs').trans hparent⟩

/-- The calls are those of before, on states with the same parents. -/
theorem Sound.of_placed (h : s.Sound) (hplaced : s'.Placed) (hsame : SameParents s.states s'.states)
    (hcalls : ∀ c ∈ s'.calls, c ∈ s.calls) : s'.Sound where
  toPlaced := hplaced
  walks c hc := links_kept hplaced.balanced hsame (hplaced.alive_of_call hc) (h.walks c (hcalls c hc))

theorem same_change (states : Cells (Shared SState)) (group : Nat) (f : SState → SState) :
    SameParents states (states.change group f) := by
  intro other state state' hs hs'
  unfold Cells.change at hs'
  split at hs'
  · rename_i old hold
    rcases (Cells.write_eq_some (Cells.lt_next hold)).mp hs' with ⟨rfl, rfl⟩ | ⟨-, hs'⟩
    · obtain rfl := Option.some.inj (hs.symm.trans hold)
      rfl
    · rw [Option.some.inj (hs.symm.trans hs')]
  · rw [Option.some.inj (hs.symm.trans hs')]

theorem same_share (states : Cells (Shared SState)) (group : Nat) : SameParents states (states.share group) := by
  intro other state state' hs hs'
  obtain ⟨old, hold, -, hparent⟩ := Cells.share_eq_some hs'
  rw [← hparent, Option.some.inj (hs.symm.trans hold)]

theorem same_drop (states : Cells (Shared SState)) (group : Nat) : SameParents states (states.drop group) := by
  intro other state state' hs hs'
  obtain ⟨old, hold, -, hparent⟩ := Cells.dropAt_eq_some hs'
  rw [← hparent, Option.some.inj (hs.symm.trans hold)]

theorem same_make (states : Cells (Shared SState)) (parent : Option Nat) :
    SameParents states (states.make {} parent) := by
  intro other state state' hs hs'
  rcases Cells.make_eq_some hs' with ⟨rfl, -, -⟩ | ⟨-, old, hold, -, hparent⟩
  · exact absurd (Cells.lt_next hs) (Nat.lt_irrefl _)
  · rw [← hparent, Option.some.inj (hs.symm.trans hold)]

/-- The references may be counted in any order. -/
theorem Sound.rooted (h : s.Sound) (hcount : ∀ g, s.roots.count g = roots.count g) : s.states.Balanced roots :=
  h.balanced.perm (List.perm_iff_count.mpr hcount)

theorem Sound.perm (h : s.Sound) (hperm : s.calls.Perm calls) : Sound { s with calls := calls } where
  balanced := by
    apply h.balanced.perm
    exact (((hperm.flatMap_right _).append_left _).append_left _).append_left _ |>.append_left _
  inline := h.inline
  objects c hc := h.objects c (hperm.mem_iff.mpr hc)
  currents c hc := h.currents c (hperm.mem_iff.mpr hc)
  single := (hperm.map Call.thread).nodup_iff.mp h.single
  nodup := h.nodup
  stacked := h.stacked
  walks c hc := h.walks c (hperm.mem_iff.mpr hc)

theorem Sound.change (h : s.Sound) (group : Nat) (f : SState → SState) :
    Sound { s with states := s.states.change group f } := by
  refine h.of_placed ?_ (same_change s.states group f) fun c hc => hc
  exact ⟨h.balanced.change group f, h.inline, h.objects, h.currents, h.single, h.nodup, h.stacked⟩

/-- A call goes on, still made with what it was made with. -/
theorem Sound.goOn (h : Sound { s with calls := c :: s.calls }) (hrunner : doing.isRunner = c.doing.isRunner)
    (hobject : doing.usesObject = true → c.group ∈ s.handles)
    (hcurrent : ∀ a, doing = .asking a → s.tCurrent c.thread = some c.group)
    (hwalk : Relation.ReflTransGen s.states.Links c.group (Call.uses { c with doing := doing })) :
    Sound (s.goOn c doing) where
  balanced := by
    apply h.rooted
    simp [CJobGroups.roots, CJobGroups.goOn, hrunner]
  inline := h.inline
  objects := List.forall_mem_cons.mpr ⟨hobject, (List.forall_mem_cons.mp h.objects).2⟩
  currents := List.forall_mem_cons.mpr ⟨hcurrent, (List.forall_mem_cons.mp h.currents).2⟩
  single := h.single
  nodup := h.nodup
  stacked := h.stacked
  walks := List.forall_mem_cons.mpr ⟨hwalk, (List.forall_mem_cons.mp h.walks).2⟩

/-- A call on a group's object goes on with something that is not up the parents. -/
theorem Sound.goOn_own (h : Sound { s with calls := c :: s.calls }) (hrunner : doing.isRunner = c.doing.isRunner)
    (hobject : doing.usesObject = true → c.doing.usesObject = true) (hcurrent : ∀ a, doing ≠ .asking a)
    (huses : Call.uses { c with doing := doing } = c.group) : Sound (s.goOn c doing) := by
  refine h.goOn hrunner (fun ho => h.objects c List.mem_cons_self (hobject ho)) (fun a ha => absurd ha (hcurrent a)) ?_
  rw [huses]

/-- A call that is not a runner's ends. -/
theorem Sound.ends (h : Sound { s with calls := c :: s.calls }) (hrunner : c.doing.isRunner = false) : s.Sound where
  balanced := by
    have hbalanced := h.balanced
    simpa [CJobGroups.roots, hrunner, ownRef] using hbalanced
  inline := h.inline
  objects := (List.forall_mem_cons.mp h.objects).2
  currents := (List.forall_mem_cons.mp h.currents).2
  single := (List.nodup_cons.mp h.single).2
  nodup := h.nodup
  stacked := h.stacked
  walks := (List.forall_mem_cons.mp h.walks).2

theorem Sound.finish {isRunner : Bool} (h : Sound { s with calls := c :: s.calls })
    (hrunner : c.doing.isRunner = isRunner) : Sound (s.finish c isRunner) := by
  cases isRunner with
  | false => exact h.ends hrunner
  | true => exact h.goOn_own hrunner.symm (by simp [Doing.usesObject]) (by simp) rfl

/-- A runner is destroyed. -/
theorem Sound.release (h : Sound { s with calls := c :: s.calls }) (hrunner : c.doing.isRunner = true) :
    Sound { s with states := s.states.drop c.group } := by
  refine h.of_placed ?_ (same_drop s.states c.group) fun d hd => List.mem_cons_of_mem c hd
  refine ⟨?_, h.inline, ?_, ?_, (List.nodup_cons.mp h.single).2, h.nodup, h.stacked⟩
  · apply Cells.Balanced.drop
    apply h.rooted
    intro g
    simp only [CJobGroups.roots, List.flatMap_cons, hrunner, ownRef, if_true, List.count_append, List.count_cons,
      List.count_nil]
    omega
  · exact (List.forall_mem_cons.mp h.objects).2
  · exact (List.forall_mem_cons.mp h.currents).2

/-- A runner is queued with a reference of its own. -/
theorem Sound.queue (h : s.Sound) (hg : (s.states.cell group).isSome) :
    Sound { s with states := s.states.share group, runners := group :: s.runners } := by
  refine h.of_placed ?_ (same_share s.states group) fun d hd => hd
  refine ⟨?_, h.inline, h.objects, h.currents, h.single, h.nodup, h.stacked⟩
  apply (h.balanced.share hg).perm
  simp only [CJobGroups.roots, List.cons_append]
  exact List.perm_middle.symm

theorem sound_pop {isRunner : Bool} (h : Sound { s with calls := ⟨thread, group, .popping isRunner⟩ :: s.calls })
    (state : Shared SState) : Sound (s.pop ⟨thread, group, .popping isRunner⟩ state isRunner).1 := by
  unfold CJobGroups.pop
  split
  · exact h.finish rfl
  · exact (h.change group fun v => { v with pending := v.pending - 1 }).goOn_own rfl id (by simp) rfl

theorem sound_checked {isRunner : Bool} {a : Nat}
    (h : Sound { s with calls := ⟨thread, group, .checking isRunner a⟩ :: s.calls }) (result : Bool) :
    Sound (s.checked ⟨thread, group, .checking isRunner a⟩ isRunner result).1 := by
  cases result with
  | false => exact h.goOn_own rfl id (by simp) rfl
  | true => exact h.goOn_own rfl id (by simp) rfl

/-- The body of a popped job begins, with what RunOnePending is called with. -/
theorem sound_execute {isRunner : Bool} (h : Sound { s with calls := ⟨thread, group, .starting isRunner⟩ :: s.calls }) :
    Sound (s.execute ⟨thread, group, .starting isRunner⟩ isRunner).1 := by
  obtain ⟨hfresh, hsingle⟩ := List.nodup_cons.mp h.single
  refine ⟨⟨?_, ?_, ?_, fun d hd b hb => ?_, hsingle, h.nodup, fun other => ?_⟩, ?_⟩
  · apply h.rooted
    intro g
    simp only [CJobGroups.roots, CJobGroups.execute, List.flatMap_cons, Doing.isRunner, List.count_append]
    omega
  · refine List.forall_mem_cons.mpr ⟨fun hr => ?_, h.inline⟩
    apply h.objects _ List.mem_cons_self
    simp only [Doing.usesObject, show isRunner = false from hr, Bool.not_false]
  · exact (List.forall_mem_cons.mp h.objects).2
  · have hother : d.thread ≠ thread := by
      intro heq
      exact hfresh (List.mem_map.mpr ⟨d, hd, heq⟩)
    simp only [CJobGroups.execute]
    rw [Function.update_of_ne hother]
    exact h.currents d (List.mem_cons_of_mem _ hd) b hb
  · by_cases hother : thread = other
    · subst hother
      simp only [CJobGroups.execute, stack, List.filter_cons, decide_true, if_true, Function.update_self]
      exact ⟨rfl, h.stacked thread⟩
    · have hdecide : decide (thread = other) = false := by simpa using hother
      simp only [CJobGroups.execute, stack, List.filter_cons, hdecide, Bool.false_eq_true, if_false]
      rw [Function.update_of_ne (Ne.symm hother)]
      exact h.stacked other
  · exact (List.forall_mem_cons.mp h.walks).2

/-- IsCancelled goes on to the parent of the state that it is at. -/
theorem Sound.ask_parent {parent : Nat} (h : Sound { s with calls := c :: s.calls })
    (hs : s.states.cell c.uses = some state) (hparent : isCancelled state = .inr parent)
    (hrunner : doing.isRunner = c.doing.isRunner) (hobject : doing.usesObject = c.doing.usesObject)
    (hcurrent : ∀ a, doing = .asking a → ∃ b, c.doing = .asking b)
    (huses : Call.uses { c with doing := doing } = parent) : Sound (s.goOn c doing) := by
  apply h.goOn hrunner
  · intro ho
    exact h.objects c List.mem_cons_self (hobject ▸ ho)
  · intro a ha
    obtain ⟨b, hb⟩ := hcurrent a ha
    exact h.currents c List.mem_cons_self b hb
  · rw [huses]
    exact (h.walks c List.mem_cons_self).tail ⟨state, hs, parent_of_isCancelled hparent⟩

/-- One step of a call keeps the counts right. -/
theorem sound_advance (h : Sound { s with calls := c :: s.calls }) (hs : s.states.cell c.uses = some state) :
    Sound (s.advance c state).1 := by
  obtain ⟨thread, group, doing⟩ := c
  cases doing with
  | popping isRunner => exact sound_pop h state
  | checking isRunner a =>
    simp only [CJobGroups.advance]
    split
    · exact sound_checked h _
    · rename_i parent hparent
      exact h.ask_parent hs hparent rfl rfl (by simp) rfl
  | starting isRunner => exact sound_execute h
  | settling isRunner => exact h.finish rfl
  | releasing => exact h.release rfl
  | counting => exact h.goOn_own rfl id (by simp) rfl
  | pushing => exact (h.change group fun v => { v with pending := v.pending + 1 }).goOn_own rfl id (by simp) rfl
  | queueing => exact (h.ends rfl).queue (h.alive_of_call List.mem_cons_self)
  | flagging => exact (h.change group fun v => { v with cancelled := true }).goOn_own rfl id (by simp) rfl
  | dropping =>
    simp only [CJobGroups.advance]
    split
    · exact h.ends rfl
    · exact (h.change group fun v => { v with pending := 0 }).goOn_own rfl id (by simp) rfl
  | requesting a =>
    simp only [CJobGroups.advance]
    split
    · exact h.ends rfl
    · rename_i parent hparent
      exact h.ask_parent hs hparent rfl rfl (by simp) rfl
  | asking a =>
    simp only [CJobGroups.advance]
    split
    · exact h.ends rfl
    · rename_i parent hparent
      exact h.ask_parent hs hparent rfl rfl (fun _ _ => ⟨a, rfl⟩) rfl

theorem checked_ne_fault (s : CJobGroups) (c : Call) (isRunner result : Bool) :
    (s.checked c isRunner result).2 ≠ .fault := by
  cases result <;> simp [CJobGroups.checked]

theorem advance_ne_fault (s : CJobGroups) (c : Call) (state : Shared SState) : (s.advance c state).2 ≠ .fault := by
  unfold CJobGroups.advance
  split
  · unfold CJobGroups.pop
    split <;> simp
  · split
    · exact checked_ne_fault s c _ _
    · simp
  · simp [CJobGroups.execute]
  all_goals first | (split <;> simp) | simp

theorem Placed.single_cons (h : s.Placed) (hidle : s.Idle c.thread) : ((c :: s.calls).map Call.thread).Nodup := by
  refine List.nodup_cons.mpr ⟨fun hmem => ?_, h.single⟩
  obtain ⟨d, hd, hthread⟩ := List.mem_map.mp hmem
  exact hidle d hd hthread

/-- A thread that is in no call begins one. -/
theorem Sound.begin (h : s.Sound) (hidle : s.Idle c.thread) (hrunner : c.doing.isRunner = false)
    (hobject : c.doing.usesObject = true → c.group ∈ s.handles)
    (hcurrent : ∀ a, c.doing = .asking a → s.tCurrent c.thread = some c.group) (huses : c.uses = c.group) :
    Sound { s with calls := c :: s.calls } where
  balanced := by
    have hbalanced := h.balanced
    simpa [CJobGroups.roots, hrunner, ownRef] using hbalanced
  inline := h.inline
  objects := List.forall_mem_cons.mpr ⟨hobject, h.objects⟩
  currents := List.forall_mem_cons.mpr ⟨hcurrent, h.currents⟩
  single := h.single_cons hidle
  nodup := h.nodup
  stacked := h.stacked
  walks := List.forall_mem_cons.mpr ⟨huses ▸ .refl, h.walks⟩

theorem sound_construct (h : s.Sound) : Sound (s.construct thread).1 ∧ (s.construct thread).2 ≠ .fault := by
  have hparent : ∀ p, s.tCurrent thread = some p → (s.states.cell p).isSome := fun p hp => h.alive_of_current hp
  have hall : (s.tCurrent thread).all (fun parent => (s.states.cell parent).isSome) = true := by
    cases hp : s.tCurrent thread with
    | none => rfl
    | some p => exact hparent p hp
  simp only [CJobGroups.construct, hall, if_true]
  refine ⟨h.of_placed ?_ (same_make s.states (s.tCurrent thread)) fun d hd => hd, by simp⟩
  refine ⟨h.balanced.make {} hparent, fun f hf hr => ?_, fun d hd ho => ?_, h.currents, h.single, ?_, h.stacked⟩
  · exact List.mem_cons_of_mem _ (h.inline f hf hr)
  · exact List.mem_cons_of_mem _ (h.objects d hd ho)
  · refine List.nodup_cons.mpr ⟨fun hmem => ?_, h.nodup⟩
    obtain ⟨state, hs⟩ := Option.isSome_iff_exists.mp (h.alive_of_handle hmem)
    exact absurd (Cells.lt_next hs) (Nat.lt_irrefl _)

theorem sound_destroy (h : s.Sound) (hg : group ∈ s.handles) (hunused : s.Unused group) :
    Sound { s with states := s.states.drop group, handles := s.handles.erase group } := by
  refine h.of_placed ?_ (same_drop s.states group) fun d hd => hd
  refine ⟨?_, fun f hf hr => ?_, fun d hd ho => ?_, h.currents, h.single, h.nodup.erase group, h.stacked⟩
  · apply Cells.Balanced.drop
    apply h.balanced.perm
    exact (List.perm_cons_erase hg).append_right _
  · have hne : f.group ≠ group := by
      intro heq
      simpa [hr] using hunused.1 f hf heq
    exact (List.mem_erase_of_ne hne).mpr (h.inline f hf hr)
  · have hne : d.group ≠ group := by
      intro heq
      simpa [ho] using hunused.2 d hd heq
    exact (List.mem_erase_of_ne hne).mpr (h.objects d hd ho)

/-- A worker takes a queued runner over, with its reference. -/
theorem sound_work (h : s.Sound) (hg : group ∈ s.runners) (hidle : s.Idle thread) :
    Sound { s with runners := s.runners.erase group, calls := ⟨thread, group, .popping true⟩ :: s.calls } where
  balanced := by
    apply h.rooted
    intro g
    have hcount := (List.perm_cons_erase hg).count_eq g
    simp only [CJobGroups.roots, List.flatMap_cons, Doing.isRunner, ownRef, if_true, List.count_append,
      List.count_cons, List.count_nil] at hcount ⊢
    omega
  inline := h.inline
  objects := List.forall_mem_cons.mpr ⟨by simp [Doing.usesObject], h.objects⟩
  currents := List.forall_mem_cons.mpr ⟨by simp, h.currents⟩
  single := h.single_cons hidle
  nodup := h.nodup
  stacked := h.stacked
  walks := List.forall_mem_cons.mpr ⟨.refl, h.walks⟩

theorem sound_discard (h : s.Sound) (hg : group ∈ s.runners) :
    Sound { s with runners := s.runners.erase group, leaked := group :: s.leaked } := by
  refine h.of_placed ?_ (fun _ _ _ hs hs' => by rw [Option.some.inj (hs.symm.trans hs')]) fun d hd => hd
  refine ⟨?_, h.inline, h.objects, h.currents, h.single, h.nodup, h.stacked⟩
  apply h.balanced.perm
  exact (((List.perm_cons_erase hg).append_right _).trans List.perm_middle.symm).append_left s.handles

/-- The body that returns is the innermost one of its thread, and all the others stay. -/
theorem split_frames (h : (s.frames.find? fun f => f.thread = thread) = some f) :
    f.thread = thread ∧ s.frames.Perm (f :: s.frames.eraseP fun f => f.thread = thread) ∧
      s.stack thread = f :: (s.frames.eraseP fun f => f.thread = thread).filter (fun f => f.thread = thread) ∧
      ∀ other, other ≠ thread →
        (s.frames.eraseP fun f => f.thread = thread).filter (fun f => f.thread = other) = s.stack other := by
  obtain ⟨hf, before, after, heq, hbefore⟩ := List.find?_eq_some_iff_append.mp h
  obtain rfl : f.thread = thread := of_decide_eq_true hf
  have hskip : ∀ g ∈ before, ¬ (decide (g.thread = f.thread)) = true := by
    intro g hg
    simpa using hbefore g hg
  have herase : (s.frames.eraseP fun g => g.thread = f.thread) = before ++ after := by
    rw [heq, List.eraseP_append_right _ hskip]
    simp
  rw [herase]
  refine ⟨rfl, heq ▸ List.perm_middle, ?_, fun other hother => ?_⟩
  · rw [stack, heq, List.filter_append, List.filter_append, List.filter_eq_nil_iff.mpr hskip]
    simp
  · rw [stack, heq]
    simp [hother.symm]

theorem sound_leave (h : s.Sound) (hidle : s.Idle thread)
    (hf : (s.frames.find? fun f => f.thread = thread) = some f) : Sound (s.leave f).1 := by
  obtain ⟨rfl, hperm, hstack, hothers⟩ := split_frames hf
  have hmem : ∀ g, g ∈ s.frames ↔ g = f ∨ g ∈ s.frames.eraseP fun g => g.thread = f.thread := by
    intro g
    rw [hperm.mem_iff, List.mem_cons]
  have hgroup : f.isRunner = false → f.group ∈ s.handles := h.inline f ((hmem f).mpr (.inl rfl))
  refine ⟨⟨?_, fun g hg hr => h.inline g ((hmem g).mpr (.inr hg)) hr, ?_, ?_, ?_, h.nodup, fun other => ?_⟩, ?_⟩
  · apply h.rooted
    intro g
    have hcount := (hperm.flatMap_right fun frame => ownRef frame.group frame.isRunner).count_eq g
    simp only [CJobGroups.roots, CJobGroups.leave, List.flatMap_cons, Doing.isRunner, List.count_append] at hcount ⊢
    omega
  · refine List.forall_mem_cons.mpr ⟨fun ho => hgroup ?_, h.objects⟩
    simpa [Doing.usesObject] using ho
  · refine List.forall_mem_cons.mpr ⟨by simp, fun d hd a ha => ?_⟩
    simp only [CJobGroups.leave]
    rw [Function.update_of_ne (hidle d hd)]
    exact h.currents d hd a ha
  · exact h.single_cons hidle
  · have hold := h.stacked other
    by_cases hother : other = f.thread
    · subst hother
      rw [hstack] at hold
      simp only [CJobGroups.leave, Function.update_self]
      exact hold.2
    · simp only [CJobGroups.leave]
      rw [Function.update_of_ne hother]
      rw [← hothers other hother] at hold
      exact hold
  · exact List.forall_mem_cons.mpr ⟨.refl, h.walks⟩

/-- The call that a thread is in, taken off. -/
theorem Sound.take (h : s.Sound) (hc : (s.calls.find? fun call => call.thread = thread) = some c) :
    c.thread = thread ∧ c ∈ s.calls ∧ Sound { s with calls := c :: s.calls.erase c } := by
  have hmem := List.mem_of_find?_eq_some hc
  have hthread := List.find?_some hc
  exact ⟨of_decide_eq_true hthread, hmem, h.perm (List.perm_cons_erase hmem)⟩

/-- One step keeps the counts right and uses no state that is freed. -/
theorem sound_step (h : s.Sound) (hstep : s.step move = some (s', o)) : s'.Sound ∧ o ≠ .fault := by
  cases step_does hstep with
  | construct thread hidle => exact sound_construct h
  | destroy group hg hunused => exact ⟨sound_destroy h hg hunused, by simp⟩
  | call thread group method hg hidle =>
    refine ⟨h.begin hidle ?_ (fun _ => hg) ?_ ?_, by simp⟩
    · cases method <;> rfl
    · cases method <;> simp [Method.begins]
    · cases method <;> rfl
  | askNone thread hidle hnone => exact ⟨h, by simp⟩
  | ask thread group hidle hg =>
    exact ⟨h.begin hidle rfl (by simp [Doing.usesObject]) (fun _ _ => hg) rfl, by simp⟩
  | work thread group hg hidle => exact ⟨sound_work h hg hidle, by simp⟩
  | discard group hg => exact ⟨sound_discard h hg, by simp⟩
  | freed thread c hc hs =>
    have halive := h.alive_of_uses (h.take hc).2.1
    rw [hs] at halive
    cases halive
  | go thread c state hc hs => exact ⟨sound_advance (h.take hc).2.2 hs, advance_ne_fault _ c state⟩
  | leave thread f hidle hf => exact ⟨sound_leave h hidle hf, by simp [CJobGroups.leave]⟩

theorem sound_run {moves : List GroupMove} {seen : List GroupSeen} (h : groupMachine.run {} moves = some (s, seen)) :
    s.Sound ∧ .fault ∉ seen := by
  have hkept : ∀ (_ : List GroupMove) (os : List GroupSeen) (s : CJobGroups) (move : GroupMove) (s' : CJobGroups)
      (o : GroupSeen), Sound s ∧ .fault ∉ os → groupMachine.step s move = some (s', o) →
        Sound s' ∧ .fault ∉ os ++ [o] := by
    intro _ os s move s' o hs hstep
    obtain ⟨hsound, ho⟩ := sound_step hs.1 hstep
    refine ⟨hsound, fun hmem => ?_⟩
    rcases List.mem_append.mp hmem with hmem | hmem
    · exact hs.2 hmem
    · exact ho (List.mem_singleton.mp hmem).symm
  have hrun := Machine.run_invariant (fun _ seen s => Sound s ∧ .fault ∉ seen) [] [] hkept ⟨sound_start, by simp⟩ h
  simpa using hrun

/-- No freed state of a group is ever used, and a state is kept exactly as long as a CJobGroup object, a queued runner,
one that the pool went away with or one that a thread runs refers to it or to a group that was nested in it. -/
theorem group_states_kept {moves : List GroupMove} {seen : List GroupSeen}
    (h : groupMachine.run {} moves = some (s, seen)) : .fault ∉ seen ∧ ∀ group,
      (s.states.cell group).isSome ↔ ∃ r ∈ s.roots, Relation.ReflTransGen s.states.Links r group := by
  obtain ⟨hsound, hfault⟩ := sound_run h
  refine ⟨hfault, fun group => ⟨fun hsome => ?_, fun hkept => ?_⟩⟩
  · obtain ⟨state, hs⟩ := Option.isSome_iff_exists.mp hsome
    exact hsound.balanced.kept hs
  · obtain ⟨r, hr, hpath⟩ := hkept
    exact hsound.balanced.isSome_of_links (hsound.balanced.held r hr) hpath

/-- A group's job makes another group and the first one's object goes before the second one's runner is through. -/
def nestedGroups : List GroupMove :=
  [.construct 0, .call 0 0 .submitJob, .go 0, .go 0, .go 0, .work 1 0, .go 1, .go 1, .go 1, .construct 1, .destroy 0,
    .call 1 1 .submitJob, .go 1, .go 1, .go 1, .leave 1, .go 1, .go 1, .destroy 1, .work 1 1, .go 1, .go 1,
    .go 1, .go 1, .leave 1, .go 1, .go 1]

theorem group_states_kept_nested : ∃ s seen, groupMachine.run {} nestedGroups = some (s, seen) ∧ .fault ∉ seen ∧
    ∀ group, (s.states.cell group).isSome ↔ ∃ r ∈ s.roots, Relation.ReflTransGen s.states.Links r group := by
  have hsome : (groupMachine.run {} nestedGroups).isSome = true := by decide +kernel
  obtain ⟨⟨s, seen⟩, hrun⟩ := Option.isSome_iff_exists.mp hsome
  exact ⟨s, seen, hrun, group_states_kept hrun⟩

end CJobGroups

end TgeCore.Threading
