import TgeCore.Module.Boot
import TgeCore.Module.BootOrder

namespace TgeCore.Module

variable {Id Mod : Type} [DecidableEq Id] [DecidableEq Mod] (I : Interface Id Mod)

/-- What one call shows: the modules it ticks with their phases, and CanRun afterwards. -/
structure Observation (Mod : Type) where
  ticks : List (EFramePhase × Mod)
  canRun : Bool
deriving DecidableEq

def Event.tick? : Event Id Mod → Option (EFramePhase × Mod)
  | .update phase pModule _ => some (phase, pModule)
  | _ => none

/-- What the calls on a booted runtime show. -/
def observe (rt : CRuntime Mod) : List Call → List (Observation Mod)
  | [] => []
  | .update deltaTime :: calls =>
    ⟨(@CRuntime.update Id Mod rt deltaTime).filterMap Event.tick?, rt.canRun⟩ :: observe rt calls
  | .quit :: calls => ⟨[], rt.quit.canRun⟩ :: observe rt.quit calls

/-- What a boot shows: Initialize's verdict, CanRun, and then what the calls show. -/
def session (rt : CRuntime Mod) (boot : Boot Mod) : Bool × Bool × List (Observation Mod) :=
  let booted := rt.initializeWith I boot.context boot.succeeds
  (booted.1, booted.2.1.canRun, @observe Id Mod booted.2.1 boot.calls)

/-- The modules a runtime can still reach through its members. -/
def CRuntime.refersTo (rt : CRuntime Mod) (m : Mod) : Prop :=
  m ∈ rt.modules ∨ m ∈ rt.activeModules ∨ m ∈ rt.order ∨ m ∈ rt.noTick ∨
    ∃ phase, m ∈ rt.schedule phase

/-- The frame a context asks for: every entry, phase after phase. -/
def SRunContext.frame (context : SRunContext Mod) : List (EFramePhase × Mod) :=
  framePhases.flatMap (fun phase =>
    (context.schedule.filter (fun entry => entry.phase = phase)).map
      (fun entry => (phase, entry.pModule)))

/-- Every scheduled entry names a module of the context. -/
def SRunContext.ScheduleRegistered (context : SRunContext Mod) : Prop :=
  ∀ entry ∈ context.schedule, entry.pModule ∈ context.modules

instance (context : SRunContext Mod) : Decidable context.ScheduleRegistered :=
  inferInstanceAs (Decidable (∀ entry ∈ context.schedule, entry.pModule ∈ context.modules))

/-- A boot on a runtime with a history is the boot on a new runtime: it shows the
same, it knows no module but its own, and a frame is the one the context asks for. -/
def LikeNew (I : Interface Id Mod) (history : List (Boot Mod)) (boot : Boot Mod) : Prop :=
  let booted := (afterBoots I history).initializeWith I boot.context boot.succeeds
  session I (afterBoots I history) boot = session I {} boot ∧
    (∀ m, booted.2.1.refersTo m → m ∈ boot.context.modules ∨ m ∈ boot.context.noTick) ∧
    (booted.1 = true → ∀ deltaTime,
      (@CRuntime.update Id Mod booted.2.1 deltaTime).filterMap Event.tick? = boot.context.frame)

/-- A boot that leaves nothing behind: no tick of its own, no no-tick module, no Quit. -/
def LeavesNothing (boot : Boot Mod) : Prop :=
  (∀ phase, boot.context.ticks phase = []) ∧ boot.context.noTick = [] ∧ .quit ∉ boot.calls

variable {I}

theorem SRunContext.ticks_mem {context : SRunContext Mod} {phase : EFramePhase} {m : Mod}
    (h : m ∈ context.ticks phase) : m ∈ context.modules := by
  simp only [SRunContext.ticks, List.mem_map, List.mem_filter, decide_eq_true_eq] at h
  obtain ⟨entry, ⟨_, _, hm⟩, rfl⟩ := h
  exact hm

omit [DecidableEq Mod] in
theorem initializeLoop_active (modules : List Mod) (succeeds : Mod → Bool)
    (order active : List Mod) :
    ∀ m ∈ (initializeLoop I modules succeeds order active).2.1, m ∈ active ∨ m ∈ order := by
  induction order generalizing active with
  | nil => exact fun m hm => .inl hm
  | cons x rest ih =>
    intro m hm
    simp only [initializeLoop] at hm
    split at hm
    · rcases ih (active ++ [x]) m hm with h | h
      · rcases List.mem_append.mp h with h | h
        · exact .inl h
        · exact .inr (by simp [List.mem_singleton.mp h])
      · exact .inr (by simp [h])
    · exact .inl hm

/-- Only modules of the context are activated. -/
theorem bootOutcome_active (context : SRunContext Mod) (succeeds : Mod → Bool) :
    ∀ m ∈ (bootOutcome I context succeeds).2.1, m ∈ context.modules := by
  intro m hm
  simp only [bootOutcome] at hm
  split at hm
  · rcases initializeLoop_active _ _ _ _ m hm with h | h
    · cases h
    · exact List.mem_eraseDups.mp ((resolve_order (nodup_eraseDups _)).2 m h)
  · cases hm

omit [DecidableEq Id] [DecidableEq Mod] in
theorem update_ticks (rt : CRuntime Mod) (deltaTime : Rat) :
    (@CRuntime.update Id Mod rt deltaTime).filterMap Event.tick? =
      if rt.initialized then
        framePhases.flatMap (fun phase => (rt.schedule phase).map (fun m => (phase, m)))
      else [] := by
  simp only [CRuntime.update]
  split
  · simp [framePhases, Event.tick?, List.filterMap_append, List.filterMap_map, Function.comp_def,
      List.filterMap_eq_map']
  · rfl

omit [DecidableEq Id] [DecidableEq Mod] in
/-- Two runtimes that agree on the schedule, the verdict and Quit show the same. -/
theorem observe_congr {rt rt' : CRuntime Mod} (hs : rt.schedule = rt'.schedule)
    (hi : rt.initialized = rt'.initialized) (hr : rt.running = rt'.running) (calls : List Call) :
    @observe Id Mod rt calls = @observe Id Mod rt' calls := by
  induction calls generalizing rt rt' with
  | nil => rfl
  | cons call calls ih =>
    cases call with
    | update deltaTime =>
      simp only [observe, update_ticks, CRuntime.canRun, hs, hi, hr]
      rw [ih hs hi hr]
    | quit =>
      simp only [observe, CRuntime.canRun]
      have hquit : rt.quit.running = rt'.quit.running := rfl
      exact congrArg _ (ih hs hi hquit)

/-- The frame a booted context runs is the one it asks for exactly when every
entry names one of its modules. -/
theorem frame_ticks (context : SRunContext Mod) :
    framePhases.flatMap (fun phase => (context.ticks phase).map (fun m => (phase, m))) =
      context.frame ↔ context.ScheduleRegistered := by
  constructor
  · intro h entry hentry
    have hin : (entry.phase, entry.pModule) ∈ context.frame := by
      simp only [SRunContext.frame, List.mem_flatMap, List.mem_map, List.mem_filter]
      exact ⟨entry.phase, mem_framePhases _, entry, ⟨hentry, by simp⟩, rfl⟩
    rw [← h] at hin
    simp only [List.mem_flatMap, List.mem_map, Prod.mk.injEq] at hin
    obtain ⟨phase, _, m, hm, _, rfl⟩ := hin
    exact SRunContext.ticks_mem hm
  · intro h
    unfold SRunContext.frame SRunContext.ticks
    congr 1
    funext phase
    rw [List.map_map]
    congr 1
    apply List.filter_congr
    intro entry hentry
    simp [h entry hentry]

section History
variable {history : List (Boot Mod)} (hclean : ∀ boot ∈ history, LeavesNothing boot)
include hclean

/-- After boots that leave nothing, the members a boot reads are those of a new runtime. -/
theorem afterBoots_clean : (afterBoots I history).schedule = (fun _ => []) ∧
    (afterBoots I history).noTick = [] ∧ (afterBoots I history).running = true := by
  obtain ⟨_, hs, hn, hr⟩ := afterBoots_spec (I := I) history
  refine ⟨?_, ?_, ?_⟩
  · funext phase
    rw [hs, List.flatMap_eq_nil_iff]
    exact fun boot hb => (hclean boot hb).1 phase
  · rw [hn, List.flatMap_eq_nil_iff]
    exact fun boot hb => (hclean boot hb).2.1
  · rw [hr, List.all_eq_true]
    exact fun boot hb => decide_eq_true (hclean boot hb).2.2

theorem session_clean (boot : Boot Mod) :
    session I (afterBoots I history) boot = session I {} boot := by
  obtain ⟨hs, _, hr⟩ := afterBoots_clean (I := I) hclean
  have hnew : Idle ({} : CRuntime Mod) := ⟨rfl, rfl, rfl⟩
  simp only [session, initialize_verdict (afterBoots_idle history), initialize_verdict hnew,
    initialize_runtime (afterBoots_idle history), initialize_runtime hnew]
  have hobserve : @observe Id Mod
      (bootedRuntime I (afterBoots I history) boot.context boot.succeeds) boot.calls =
      @observe Id Mod (bootedRuntime I {} boot.context boot.succeeds) boot.calls := by
    apply observe_congr
    · simp [bootedRuntime, hs]
    · rfl
    · exact hr
  rw [hobserve]
  simp [CRuntime.canRun, bootedRuntime, hr]

theorem refersTo_clean (boot : Boot Mod) (m : Mod)
    (h : ((afterBoots I history).initializeWith I boot.context boot.succeeds).2.1.refersTo m) :
    m ∈ boot.context.modules ∨ m ∈ boot.context.noTick := by
  obtain ⟨hs, hn, _⟩ := afterBoots_clean (I := I) hclean
  rw [initialize_runtime (afterBoots_idle history)] at h
  rcases h with h | h | h | h | ⟨phase, h⟩
  · exact .inl (List.mem_eraseDups.mp h)
  · exact .inl (bootOutcome_active _ _ m h)
  · exact .inl (List.mem_eraseDups.mp ((resolve_order (nodup_eraseDups _)).2 m h))
  · exact .inr (by simpa [bootedRuntime, hn] using h)
  · have hticks : m ∈ boot.context.ticks phase := by simpa [bootedRuntime, hs] using h
    exact .inl (SRunContext.ticks_mem hticks)

theorem update_clean (boot : Boot Mod)
    (hok : ((afterBoots I history).initializeWith I boot.context boot.succeeds).1 = true)
    (deltaTime : Rat) :
    (@CRuntime.update Id Mod ((afterBoots I history).initializeWith I boot.context
        boot.succeeds).2.1 deltaTime).filterMap Event.tick? =
      framePhases.flatMap (fun phase => (boot.context.ticks phase).map (fun m => (phase, m))) := by
  obtain ⟨hs, _, _⟩ := afterBoots_clean (I := I) hclean
  rw [initialize_verdict (afterBoots_idle history)] at hok
  rw [initialize_runtime (afterBoots_idle history), update_ticks]
  simp [bootedRuntime, hok, hs]

theorem likeNew_iff (boot : Boot Mod) : LikeNew I history boot ↔
    (((afterBoots I history).initializeWith I boot.context boot.succeeds).1 = true →
      boot.context.ScheduleRegistered) := by
  constructor
  · rintro ⟨_, _, hframe⟩ hok
    have := hframe hok 0
    rw [update_clean hclean boot hok] at this
    exact (frame_ticks _).mp this
  · intro hreg
    refine ⟨session_clean hclean boot, refersTo_clean hclean boot, ?_⟩
    intro hok deltaTime
    rw [update_clean hclean boot hok]
    exact (frame_ticks _).mpr (hreg hok)

end History

/-- A boot of no modules. -/
def emptyBoot : Boot Mod where
  context := { modules := [], schedule := [], noTick := [] }
  succeeds _ := true
  calls := []

/-- An empty boot shows whatever an earlier one has left. -/
theorem leavesNothing_of_likeNew {history : List (Boot Mod)} (h : LikeNew I history emptyBoot) :
    ∀ boot ∈ history, LeavesNothing boot := by
  obtain ⟨hsession, hrefers, _⟩ := h
  obtain ⟨_, hs, hn, hr⟩ := afterBoots_spec (I := I) history
  rw [initialize_runtime (afterBoots_idle history)] at hrefers
  have hno : ∀ m, ¬ (bootedRuntime I (afterBoots I history) emptyBoot.context
      emptyBoot.succeeds).refersTo m := by
    intro m hm
    have := hrefers m hm
    simp [emptyBoot] at this
  intro boot hb
  refine ⟨?_, ?_, ?_⟩
  · intro phase
    rw [List.eq_nil_iff_forall_not_mem]
    intro m hm
    apply hno m
    refine .inr (.inr (.inr (.inr ⟨phase, ?_⟩)))
    simp only [bootedRuntime, hs, List.mem_append, List.mem_flatMap]
    exact .inl ⟨boot, hb, hm⟩
  · rw [List.eq_nil_iff_forall_not_mem]
    intro m hm
    apply hno m
    refine .inr (.inr (.inr (.inl ?_)))
    simp only [bootedRuntime, hn, List.mem_append, List.mem_flatMap]
    exact .inl ⟨boot, hb, hm⟩
  · have hnew : Idle ({} : CRuntime Mod) := ⟨rfl, rfl, rfl⟩
    have hrun : (afterBoots I history).running = true := by
      have := congrArg (fun shown => shown.2.1) hsession
      simpa [session, initialize_runtime (afterBoots_idle history), initialize_runtime hnew,
        CRuntime.canRun, bootedRuntime] using this
    rw [hr, List.all_eq_true] at hrun
    exact of_decide_eq_true (hrun boot hb)

/-- A history is harmless for whatever boots next exactly when none of its boots
leaves anything. After such a history a boot only fails to be like new by
scheduling a module it does not list. -/
theorem restart_likeNew (history : List (Boot Mod)) :
    ((∀ boot, boot.context.ScheduleRegistered → LikeNew I history boot) ↔
      ∀ boot ∈ history, LeavesNothing boot) ∧
    ((∀ boot ∈ history, LeavesNothing boot) → ∀ boot, LikeNew I history boot ↔
      (((afterBoots I history).initializeWith I boot.context boot.succeeds).1 = true →
        boot.context.ScheduleRegistered)) := by
  refine ⟨⟨?_, ?_⟩, fun hclean => likeNew_iff hclean⟩
  · intro h
    exact leavesNothing_of_likeNew (h emptyBoot (by simp [SRunContext.ScheduleRegistered, emptyBoot]))
  · intro hclean boot hreg
    exact (likeNew_iff hclean boot).mpr fun _ => hreg

/-- A context of one module that ticks in one phase. -/
def tickingIn (phase : EFramePhase) (m : Bool) : Boot Bool where
  context := { modules := [m], schedule := [{ phase, pModule := m }], noTick := [] }
  succeeds _ := true
  calls := [.update 0]

/-- The second boot ticks the first boot's module, which it never registered. -/
theorem restart_keeps_schedule :
    (tickingIn .render false).context.ScheduleRegistered ∧
      (session (requireTimes 0) (afterBoots (requireTimes 0) [tickingIn .input true])
        (tickingIn .render false)).2.2 = [⟨[(.input, true), (.render, false)], true⟩] ∧
      ¬ LikeNew (requireTimes 0) [tickingIn .input true] (tickingIn .render false) := by
  refine ⟨by decide, by decide, ?_⟩
  rintro ⟨hsession, _⟩
  revert hsession
  decide

end TgeCore.Module
