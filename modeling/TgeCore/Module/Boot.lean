import TgeCore.Module.Runtime
import Mathlib.Data.List.Induction
import Mathlib.Data.List.Nodup

namespace TgeCore.Module

variable {Id Mod : Type} [DecidableEq Id] [DecidableEq Mod] {I : Interface Id Mod}

theorem eraseDups_concat (ms : List Mod) (m : Mod) : (ms ++ [m]).eraseDups =
    if m ∈ ms then ms.eraseDups else ms.eraseDups ++ [m] := by
  rw [List.eraseDups_append]
  split <;> rename_i h <;> simp [List.removeAll, List.eraseDups_cons, h]

theorem nodup_eraseDups (ms : List Mod) : ms.eraseDups.Nodup := by
  induction ms using List.reverseRecOn with
  | nil => simp
  | append_singleton ms m ih =>
    rw [eraseDups_concat]
    split
    · exact ih
    · rename_i hm
      rw [← List.concat_eq_append]
      exact List.Nodup.concat (fun hin => hm (List.mem_eraseDups.mp hin)) ih

/-- The modules a context ticks in a phase. Entries naming no module of the
context are refused with an error. -/
def SRunContext.ticks (context : SRunContext Mod) (phase : EFramePhase) : List Mod :=
  (context.schedule.filter (fun entry =>
    entry.phase = phase ∧ entry.pModule ∈ context.modules)).map SScheduleEntry.pModule

/-- Between boots: nothing registered, nothing active, not initialized. -/
structure Idle (rt : CRuntime Mod) : Prop where
  modules : rt.modules = []
  activeModules : rt.activeModules = []
  initialized : rt.initialized = false

/-- Registering keeps each module where the context lists it first. -/
theorem foldl_registerModule (rt : CRuntime Mod) (hm : rt.modules = []) (ms : List Mod) :
    ms.foldl CRuntime.registerModule rt = { rt with modules := ms.eraseDups } := by
  induction ms using List.reverseRecOn with
  | nil => rw [List.foldl_nil, List.eraseDups_nil, ← hm]
  | append_singleton ms m ih =>
    rw [List.foldl_append, List.foldl_cons, List.foldl_nil, ih, eraseDups_concat]
    simp only [CRuntime.registerModule, List.mem_eraseDups]
    split <;> rfl

omit [DecidableEq Id] in
theorem foldl_registerUpdate (entries : List (SScheduleEntry Mod)) (rt : CRuntime Mod)
    (events : List (Event Id Mod)) :
    (entries.foldl (fun state entry =>
      let next := state.1.registerUpdate I entry.phase entry.pModule
      (next.1, state.2 ++ next.2)) (rt, events)).1 =
    { rt with schedule := fun phase => rt.schedule phase ++ (entries.filter (fun entry =>
        entry.phase = phase ∧ entry.pModule ∈ rt.modules)).map SScheduleEntry.pModule } := by
  induction entries generalizing rt events with
  | nil => simp
  | cons entry entries ih =>
    rw [List.foldl_cons, ih]
    by_cases hm : entry.pModule ∈ rt.modules
    · simp only [CRuntime.registerUpdate, hm, ↓reduceIte]
      congr 1
      funext phase
      by_cases hp : phase = entry.phase
      · subst hp
        simp [hm]
      · simp [Function.update_of_ne hp, Ne.symm hp]
    · simp only [CRuntime.registerUpdate, hm, ↓reduceIte]
      congr 1
      funext phase
      simp [hm]

omit [DecidableEq Mod] in
theorem foldl_declareNoTick (ms : List Mod) (rt : CRuntime Mod) :
    ms.foldl CRuntime.declareNoTick rt = { rt with noTick := rt.noTick ++ ms } := by
  induction ms generalizing rt with
  | nil => simp
  | cons m ms ih => simp [ih, CRuntime.declareNoTick]

omit [DecidableEq Id] in
/-- What registration leaves in a runtime that is between boots. The schedule
and the no-tick list keep whatever they held before. -/
theorem register_runtime {rt : CRuntime Mod} (h : Idle rt) (context : SRunContext Mod) :
    (rt.register I context).1 = { rt with
      modules := context.modules.eraseDups,
      schedule := fun phase => rt.schedule phase ++ context.ticks phase,
      noTick := rt.noTick ++ context.noTick } := by
  simp only [CRuntime.register]
  rw [foldl_declareNoTick, foldl_registerUpdate, foldl_registerModule rt h.modules]
  simp [SRunContext.ticks]

/-- The outcome of the initialization loop over a context's modules. Nothing
else of the runtime enters it. -/
def bootOutcome (I : Interface Id Mod) (context : SRunContext Mod) (succeeds : Mod → Bool) :
    Bool × List Mod × List (Event Id Mod) :=
  let resolution := resolve I context.modules.eraseDups
  if resolution.resolved then
    initializeLoop I context.modules.eraseDups succeeds resolution.order []
  else (false, [], [])

/-- The runtime a boot leaves. -/
def bootedRuntime (I : Interface Id Mod) (rt : CRuntime Mod) (context : SRunContext Mod)
    (succeeds : Mod → Bool) : CRuntime Mod :=
  { rt with
    modules := context.modules.eraseDups
    activeModules := (bootOutcome I context succeeds).2.1
    order := (resolve I context.modules.eraseDups).order
    schedule := fun phase => rt.schedule phase ++ context.ticks phase
    noTick := rt.noTick ++ context.noTick
    initialized := (bootOutcome I context succeeds).1 }

section Initialize
variable {rt : CRuntime Mod} (h : Idle rt) (context : SRunContext Mod) (succeeds : Mod → Bool)
include h

theorem initializeModules_register :
    ((rt.register I context).1.initializeModules I succeeds).1 =
        (bootOutcome I context succeeds).1 ∧
      { ((rt.register I context).1.initializeModules I succeeds).2.1 with
        initialized := (bootOutcome I context succeeds).1 } = bootedRuntime I rt context succeeds ∧
      ((rt.register I context).1.initializeModules I succeeds).2.2 =
        (resolve I context.modules.eraseDups).log.map Event.log ++
          (bootOutcome I context succeeds).2.2 := by
  rw [register_runtime h]
  simp only [CRuntime.initializeModules, bootOutcome, bootedRuntime, h.activeModules]
  split <;> simp

theorem initialize_verdict :
    (rt.initializeWith I context succeeds).1 = (bootOutcome I context succeeds).1 :=
  (initializeModules_register h context succeeds).1

theorem initialize_runtime :
    (rt.initializeWith I context succeeds).2.1 = bootedRuntime I rt context succeeds := by
  obtain ⟨hv, hrt, _⟩ := initializeModules_register (I := I) h context succeeds
  simp only [CRuntime.initializeWith]
  rw [hv]
  exact hrt

end Initialize

/-- What the owner of a runtime does with it while it is booted. A module that
calls Quit from one of its own callbacks is a Quit at that place in the list. -/
inductive Call where
  | update (deltaTime : Rat)
  | quit
deriving DecidableEq

def CRuntime.call (rt : CRuntime Mod) : Call → CRuntime Mod
  | .update _ => rt
  | .quit => rt.quit

/-- One boot: what it is given, which modules initialize, what is done until Terminate. -/
structure Boot (Mod : Type) where
  context : SRunContext Mod
  succeeds : Mod → Bool
  calls : List Call

def Boot.run (I : Interface Id Mod) (rt : CRuntime Mod) (boot : Boot Mod) : CRuntime Mod :=
  ((boot.calls.foldl CRuntime.call
    (rt.initializeWith I boot.context boot.succeeds).2.1).terminate I).1

/-- The runtime after a history of completed boots, starting from a new one. -/
def afterBoots (I : Interface Id Mod) (history : List (Boot Mod)) : CRuntime Mod :=
  history.foldl (Boot.run I) {}

omit [DecidableEq Mod] in
theorem foldl_call (rt : CRuntime Mod) (calls : List Call) :
    calls.foldl CRuntime.call rt = { rt with running := rt.running && decide (.quit ∉ calls) } := by
  induction calls generalizing rt with
  | nil => simp
  | cons c calls ih => cases c <;> simp [ih, CRuntime.call, CRuntime.quit]

/-- A completed boot leaves nothing registered and nothing active, but its
schedule, its no-tick list and a Quit stay behind. -/
theorem run_runtime {rt : CRuntime Mod} (h : Idle rt) (boot : Boot Mod) :
    boot.run I rt = {
      modules := []
      activeModules := []
      order := (resolve I boot.context.modules.eraseDups).order
      schedule := fun phase => rt.schedule phase ++ boot.context.ticks phase
      noTick := rt.noTick ++ boot.context.noTick
      running := rt.running && decide (.quit ∉ boot.calls)
      initialized := false } := by
  simp only [Boot.run, initialize_runtime h, foldl_call, CRuntime.terminate,
    CRuntime.terminateModules, bootedRuntime]

/-- What a history of completed boots leaves behind. -/
theorem afterBoots_spec (history : List (Boot Mod)) :
    Idle (afterBoots I history) ∧
      (∀ phase, (afterBoots I history).schedule phase =
        history.flatMap (fun boot => boot.context.ticks phase)) ∧
      (afterBoots I history).noTick = history.flatMap (fun boot => boot.context.noTick) ∧
      (afterBoots I history).running = history.all (fun boot => decide (.quit ∉ boot.calls)) := by
  induction history using List.reverseRecOn with
  | nil => exact ⟨⟨rfl, rfl, rfl⟩, fun _ => rfl, rfl, rfl⟩
  | append_singleton history boot ih =>
    obtain ⟨hidle, hs, hn, hr⟩ := ih
    have hstep : afterBoots I (history ++ [boot]) = boot.run I (afterBoots I history) := by
      simp [afterBoots]
    rw [hstep, run_runtime hidle]
    exact ⟨⟨rfl, rfl, rfl⟩, fun phase => by simp [hs], by simp [hn], by simp [hr]⟩

theorem afterBoots_idle (history : List (Boot Mod)) : Idle (afterBoots I history) :=
  (afterBoots_spec history).1

end TgeCore.Module
