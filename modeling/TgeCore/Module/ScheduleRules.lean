import TgeCore.Module.Lifecycle

namespace TgeCore.Module

variable {Id Mod : Type} [DecidableEq Id] [DecidableEq Mod] {I : Interface Id Mod}

/-- The two schedule rules: every entry names a module of the context, and every
module is scheduled or declared tickless. -/
def SRunContext.KeepsScheduleRules (context : SRunContext Mod) : Prop :=
  context.ScheduleRegistered ∧
    ∀ m ∈ context.modules, m ∈ context.noTick ∨ ∃ entry ∈ context.schedule, entry.pModule = m

instance (context : SRunContext Mod) : Decidable context.KeepsScheduleRules :=
  inferInstanceAs (Decidable (_ ∧ ∀ m ∈ context.modules, _))

/-- Initialize succeeds, or initializes anything at all, for contexts that keep the rules only. -/
def EnforcesScheduleRules (I : Interface Id Mod) (rt : CRuntime Mod) (context : SRunContext Mod)
    (succeeds : Mod → Bool) : Prop :=
  let booted := rt.initializeWith I context succeeds
  (booted.1 = true ∨ ∃ m ok, .initializeModule m ok ∈ booted.2.2) → context.KeepsScheduleRules

theorem mem_initialize_events {rt : CRuntime Mod} (h : Idle rt) (context : SRunContext Mod)
    (succeeds : Mod → Bool) (m : Mod) (ok : Bool) :
    .initializeModule m ok ∈ (rt.initializeWith I context succeeds).2.2 ↔
      .initializeModule m ok ∈ (bootOutcome I context succeeds).2.2 := by
  rw [← mem_moduleCalls rfl, initialize_calls h, mem_moduleCalls rfl]

/-- Once the graph resolves, either there is nothing to initialize or the first
module of the order is initialized. -/
theorem bootOutcome_starts {context : SRunContext Mod} (succeeds : Mod → Bool)
    (hr : (resolve I context.modules.eraseDups).resolved = true) :
    (bootOutcome I context succeeds).1 = true ∨
      ∃ m ok, .initializeModule m ok ∈ (bootOutcome I context succeeds).2.2 := by
  simp only [bootOutcome, hr, if_true]
  cases (resolve I context.modules.eraseDups).order with
  | nil => exact .inl rfl
  | cons m rest =>
    right
    simp only [initializeLoop]
    split
    · exact ⟨m, true, by simp⟩
    · exact ⟨m, false, by simp⟩

/-- The schedule rules are enforced just where they are kept anyway or where the
module graph refuses the module list: a broken rule is logged and boots on. -/
theorem initialize_enforces_iff (history : List (Boot Mod)) (context : SRunContext Mod)
    (succeeds : Mod → Bool) :
    EnforcesScheduleRules I (afterBoots I history) context succeeds ↔
      context.KeepsScheduleRules ∨ (resolve I context.modules.eraseDups).resolved = false := by
  have hidle := afterBoots_idle (I := I) history
  simp only [EnforcesScheduleRules, initialize_verdict hidle, mem_initialize_events hidle]
  constructor
  · intro h
    by_cases hr : (resolve I context.modules.eraseDups).resolved = true
    · exact .inl (h (bootOutcome_starts succeeds hr))
    · exact .inr (Bool.not_eq_true _ ▸ hr)
  · rintro (h | hr) hstarted
    · exact h
    · simp [bootOutcome, hr] at hstarted

/-- A module that nothing schedules and nothing declares tickless boots. -/
theorem initialize_ignores_schedule :
    ¬ EnforcesScheduleRules (requireTimes 0) (afterBoots (requireTimes 0) [])
      { modules := [true], schedule := [], noTick := [] } (fun _ => true) := by
  intro h
  have hkeeps := h (.inl (by decide))
  revert hkeeps
  decide

end TgeCore.Module
