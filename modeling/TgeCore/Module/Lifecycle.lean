import TgeCore.Module.Restart

namespace TgeCore.Module
open Library

variable {Id Mod : Type} [DecidableEq Id] [DecidableEq Mod] {I : Interface Id Mod}

/-- A module's own Initialize or Terminate being called. -/
def Event.isModuleCall : Event Id Mod → Bool
  | .initializeModule _ _ => true
  | .terminate _ => true
  | _ => false

/-- What concerns no module's lifetime: logging, settings and ticks. -/
def Event.isQuiet : Event Id Mod → Bool
  | .initializeModule _ _ => false
  | .terminate _ => false
  | .onDependencyInitialized _ _ => false
  | .onDependencyTerminating _ _ => false
  | _ => true

def moduleCalls (events : List (Event Id Mod)) : List (Event Id Mod) :=
  events.filter Event.isModuleCall

/-- A module is active from its successful Initialize to its Terminate. -/
def activate (active : List Mod) : Event Id Mod → List Mod
  | .initializeModule pModule true => active ++ [pModule]
  | .terminate pModule => active.erase pModule
  | _ => active

/-- The modules active after a stretch of a run, in the order they became active. -/
def activeAfter (events : List (Event Id Mod)) : List Mod := events.foldl activate []

/-- Everything one boot does, from Initialize through the owner's calls to Terminate. -/
def callEvents (rt : CRuntime Mod) : List Call → List (Event Id Mod)
  | [] => []
  | .update deltaTime :: calls => rt.update deltaTime ++ callEvents rt calls
  | .quit :: calls => callEvents rt.quit calls

def Boot.trace (I : Interface Id Mod) (rt : CRuntime Mod) (boot : Boot Mod) :
    List (Event Id Mod) :=
  let booted := rt.initializeWith I boot.context boot.succeeds
  booted.2.2 ++ callEvents booted.2.1 boot.calls ++
    ((boot.calls.foldl CRuntime.call booted.2.1).terminate I).2

omit [DecidableEq Id] [DecidableEq Mod] in
@[simp] theorem moduleCalls_append (xs ys : List (Event Id Mod)) :
    moduleCalls (xs ++ ys) = moduleCalls xs ++ moduleCalls ys :=
  List.filter_append ..

omit [DecidableEq Id] [DecidableEq Mod] in
theorem moduleCalls_eq_nil {events : List (Event Id Mod)}
    (h : ∀ event ∈ events, event.isModuleCall = false) : moduleCalls events = [] := by
  rw [moduleCalls, List.filter_eq_nil_iff]
  intro event he
  simp [h event he]

omit [DecidableEq Id] in
theorem activeAfter_moduleCalls (events : List (Event Id Mod)) :
    activeAfter (moduleCalls events) = activeAfter events := by
  unfold activeAfter moduleCalls
  rw [List.foldl_filter]
  congr 1
  funext active event
  cases event <;> rfl

section Quiet

omit [DecidableEq Id] in
theorem register_quiet (rt : CRuntime Mod) (context : SRunContext Mod) :
    ∀ event ∈ (rt.register I context).2, event.isQuiet = true := by
  have step : ∀ (entries : List (SScheduleEntry Mod)) (state : CRuntime Mod × List (Event Id Mod)),
      (∀ event ∈ state.2, event.isQuiet = true) → ∀ event ∈ (entries.foldl (fun state entry =>
        let next := state.1.registerUpdate I entry.phase entry.pModule
        (next.1, state.2 ++ next.2)) state).2, event.isQuiet = true := by
    intro entries
    induction entries with
    | nil => exact fun _ h => h
    | cons entry entries ih =>
      intro state h
      apply ih
      intro event he
      rcases List.mem_append.mp he with he | he
      · exact h event he
      · simp only [CRuntime.registerUpdate] at he
        split at he
        · cases he
        · rw [List.mem_singleton.mp he]
          rfl
  exact step _ _ (by simp)

omit [DecidableEq Id] in
theorem validateSchedule_quiet (rt : CRuntime Mod) :
    ∀ event ∈ rt.validateSchedule I, event.isQuiet = true := by
  intro event he
  simp only [CRuntime.validateSchedule, List.mem_filterMap] at he
  obtain ⟨m, _, he⟩ := he
  split at he
  · cases he
  · cases he
    rfl

omit [DecidableEq Id] [DecidableEq Mod] in
theorem update_quiet (rt : CRuntime Mod) (deltaTime : Rat) :
    ∀ event ∈ @CRuntime.update Id Mod rt deltaTime, event.isQuiet = true := by
  intro event he
  simp only [CRuntime.update] at he
  split at he
  · simp only [List.mem_flatMap, List.mem_map] at he
    obtain ⟨_, _, _, _, rfl⟩ := he
    rfl
  · cases he

omit [DecidableEq Id] [DecidableEq Mod] in
theorem callEvents_quiet (rt : CRuntime Mod) (calls : List Call) :
    ∀ event ∈ @callEvents Id Mod rt calls, event.isQuiet = true := by
  induction calls generalizing rt with
  | nil => simp [callEvents]
  | cons call calls ih =>
    cases call with
    | update deltaTime =>
      intro event he
      rcases List.mem_append.mp he with he | he
      · exact update_quiet rt deltaTime event he
      · exact ih rt event he
    | quit => exact ih rt.quit

variable {p : Event Id Mod → Bool} (hp : ∀ event, event.isQuiet = true → p event = false)

omit [DecidableEq Id] [DecidableEq Mod] in
include hp in
theorem filter_quiet {events : List (Event Id Mod)} (h : ∀ event ∈ events, event.isQuiet = true) :
    events.filter p = [] := by
  rw [List.filter_eq_nil_iff]
  intro event he
  simp [hp event (h event he)]

section Run
variable {rt : CRuntime Mod} (h : Idle rt)
include h hp

/-- Around the initialization loop nothing happens but logging and settings. -/
theorem initialize_filter (context : SRunContext Mod) (succeeds : Mod → Bool) :
    (rt.initializeWith I context succeeds).2.2.filter p =
      (bootOutcome I context succeeds).2.2.filter p := by
  obtain ⟨_, _, hevents⟩ := initializeModules_register (I := I) h context succeeds
  have hlog : ((resolve I context.modules.eraseDups).log.map Event.log).filter p =
      ([] : List (Event Id Mod)) := by
    apply filter_quiet hp
    intro event he
    obtain ⟨_, _, rfl⟩ := List.mem_map.mp he
    rfl
  have hfirst : ([.initializeLogging "tge" context.logsDir context.configDir] :
      List (Event Id Mod)).filter p = [] := filter_quiet hp (by simp [Event.isQuiet])
  have hsettings : ([(rt.register I context).1.logFrameSchedule I,
      (rt.register I context).1.logModuleVersions I,
      .setNumWorkerThreads context.numWorkerThreads] : List (Event Id Mod)).filter p = [] :=
    filter_quiet hp (by simp [Event.isQuiet, CRuntime.logFrameSchedule, CRuntime.logModuleVersions])
  have hverdict : ∀ ok : Bool, (if ok then [] else [.log ⟨.error, "Failed to initialize modules"⟩] :
      List (Event Id Mod)).filter p = [] := by
    intro ok
    apply filter_quiet hp
    cases ok <;> simp [Event.isQuiet]
  simp only [CRuntime.initializeWith, List.filter_append, filter_quiet hp (register_quiet rt context),
    filter_quiet hp (validateSchedule_quiet _), hevents, hlog, hfirst, hsettings, hverdict,
    List.nil_append, List.append_nil]

/-- What a boot does about its modules: its initialization loop, and at the end
the teardown loop over what that activated. -/
theorem trace_filter (boot : Boot Mod) : (boot.trace I rt).filter p =
    (bootOutcome I boot.context boot.succeeds).2.2.filter p ++
      (terminateLoop I (bootOutcome I boot.context boot.succeeds).2.1.reverse).filter p := by
  have hlast : ([.terminateLogging] : List (Event Id Mod)).filter p = [] :=
    filter_quiet hp (by simp [Event.isQuiet])
  simp only [Boot.trace, List.filter_append, initialize_filter hp h,
    filter_quiet hp (callEvents_quiet _ _), initialize_runtime h, foldl_call, CRuntime.terminate,
    CRuntime.terminateModules, bootedRuntime, hlast, List.append_nil]

end Run

end Quiet

section Calls

omit [DecidableEq Id] [DecidableEq Mod] in
theorem isModuleCall_of_quiet (event : Event Id Mod) (h : event.isQuiet = true) :
    event.isModuleCall = false := by
  cases event <;> simp_all [Event.isQuiet, Event.isModuleCall]

omit [DecidableEq Mod] in
theorem notifyDependentsInitialized_calls (modules : List Mod) (m : Mod) :
    moduleCalls (notifyDependentsInitialized I modules m) = [] := by
  apply moduleCalls_eq_nil
  intro event he
  simp only [notifyDependentsInitialized, List.mem_map] at he
  obtain ⟨_, _, rfl⟩ := he
  rfl

/-- The teardown loop terminates what it is given, in that order. -/
theorem terminateLoop_calls (active : List Mod) :
    moduleCalls (terminateLoop I active) = active.map Event.terminate := by
  induction active with
  | nil => rfl
  | cons m earlier ih =>
    simp only [terminateLoop, moduleCalls_append, ih, List.map_cons]
    rw [moduleCalls_eq_nil (by
      intro event he
      obtain ⟨_, _, rfl⟩ := List.mem_map.mp he
      rfl)]
    rfl

end Calls

/-- The calls of an initialization that activates some modules and may then fail
at one, which is terminated at once. -/
def startCalls (activated : List Mod) (failed : Option Mod) : List (Event Id Mod) :=
  activated.map (Event.initializeModule · true) ++
    failed.toList.flatMap (fun m => [.initializeModule m false, .terminate m])

/-- The calls of a whole run: the active modules are terminated last first. -/
def runCalls (activated : List Mod) (failed : Option Mod) : List (Event Id Mod) :=
  startCalls activated failed ++ activated.reverse.map Event.terminate

/-- An initialization takes its modules from the front of the order, and it takes
all of them unless one fails. -/
def BootCalls (order activated : List Mod) (calls : List (Event Id Mod)) : Prop :=
  ∃ failed : Option Mod, activated ++ failed.toList <+: order ∧
    (failed = none → activated = order) ∧ calls = startCalls activated failed

omit [DecidableEq Id] [DecidableEq Mod] in
theorem mem_runCalls_initializeModule {activated : List Mod} {failed : Option Mod} {m : Mod} {ok : Bool} :
    .initializeModule m ok ∈ @runCalls Id Mod activated failed ↔
      (m ∈ activated ∧ ok = true) ∨ (failed = some m ∧ ok = false) := by
  cases failed <;> cases ok <;> simp [runCalls, startCalls, eq_comm]

theorem count_runCalls_terminate (activated : List Mod) (failed : Option Mod) (m : Mod) :
    (@runCalls Id Mod activated failed).count (.terminate m) =
      (activated ++ failed.toList).count m := by
  have hinit : (activated.map (@Event.initializeModule Id Mod · true)).count (.terminate m) = 0 := by
    simp [List.count_eq_zero]
  have hterm : (activated.reverse.map (@Event.terminate Id Mod)).count (.terminate m) =
      activated.count m := by
    rw [List.count_map_of_injective _ _ (fun _ _ h => Event.terminate.inj h), List.count_reverse]
  rw [runCalls, startCalls, List.count_append, List.count_append, hinit, hterm, List.count_append]
  cases failed with
  | none => simp
  | some x => by_cases h : x = m <;> simp [h, Nat.add_comm]

omit [DecidableEq Mod] in
theorem initializeLoop_calls (modules : List Mod) (succeeds : Mod → Bool) (order active : List Mod) :
    ∃ activated, (initializeLoop I modules succeeds order active).2.1 = active ++ activated ∧
      BootCalls order activated (moduleCalls (initializeLoop I modules succeeds order active).2.2) := by
  induction order generalizing active with
  | nil => exact ⟨[], by simp [initializeLoop], none, List.nil_prefix, fun _ => rfl, rfl⟩
  | cons m rest ih =>
    simp only [initializeLoop]
    split
    · obtain ⟨activated, hact, failed, hpre, hall, hcalls⟩ := ih (active ++ [m])
      refine ⟨m :: activated, by simp [hact], failed, List.cons_prefix_cons.mpr ⟨rfl, hpre⟩, ?_, ?_⟩
      · exact fun hf => congrArg (m :: ·) (hall hf)
      · simp only [moduleCalls_append, notifyDependentsInitialized_calls, List.append_nil]
        rw [hcalls]
        rfl
    · exact ⟨[], by simp, some m, by simp, by simp, rfl⟩

omit [DecidableEq Mod] in
theorem initializeLoop_succeeds (modules : List Mod) {succeeds : Mod → Bool}
    (h : ∀ m, succeeds m = true) (order active : List Mod) :
    moduleCalls (initializeLoop I modules succeeds order active).2.2 =
      order.map (Event.initializeModule · true) := by
  induction order generalizing active with
  | nil => rfl
  | cons m rest ih =>
    simp only [initializeLoop, h m, if_true, moduleCalls_append, notifyDependentsInitialized_calls,
      ih]
    rfl

/-- The order a context's modules are initialized in; a refused context initializes none. -/
def initializationOrder (I : Interface Id Mod) (context : SRunContext Mod) : List Mod :=
  let resolution := resolve I context.modules.eraseDups
  if resolution.resolved then resolution.order else []

theorem initializationOrder_spec (I : Interface Id Mod) (context : SRunContext Mod) :
    (initializationOrder I context).Nodup ∧
      ∀ m ∈ initializationOrder I context, m ∈ context.modules := by
  simp only [initializationOrder]
  split
  · obtain ⟨hn, hs⟩ := resolve_order (I := I) (nodup_eraseDups context.modules)
    exact ⟨hn, fun m hm => List.mem_eraseDups.mp (hs m hm)⟩
  · simp

theorem bootOutcome_calls (context : SRunContext Mod) (succeeds : Mod → Bool) :
    BootCalls (initializationOrder I context) (bootOutcome I context succeeds).2.1
      (moduleCalls (bootOutcome I context succeeds).2.2) := by
  simp only [initializationOrder, bootOutcome]
  split
  · obtain ⟨activated, hact, hcalls⟩ := initializeLoop_calls (I := I) context.modules.eraseDups
      succeeds (resolve I context.modules.eraseDups).order []
    rw [hact]
    exact hcalls
  · exact ⟨none, List.nil_prefix, fun _ => rfl, rfl⟩

section Run
variable {rt : CRuntime Mod} (h : Idle rt)
include h

theorem initialize_calls (context : SRunContext Mod) (succeeds : Mod → Bool) :
    moduleCalls (rt.initializeWith I context succeeds).2.2 =
      moduleCalls (bootOutcome I context succeeds).2.2 :=
  initialize_filter isModuleCall_of_quiet h context succeeds

/-- A boot's module calls from Initialize to Terminate: the initialization calls,
and then the activated modules backwards. -/
theorem trace_calls (boot : Boot Mod) :
    moduleCalls (boot.trace I rt) =
      moduleCalls (bootOutcome I boot.context boot.succeeds).2.2 ++
        (bootOutcome I boot.context boot.succeeds).2.1.reverse.map Event.terminate := by
  rw [← terminateLoop_calls (I := I)]
  exact trace_filter isModuleCall_of_quiet h boot

end Run

section Active

theorem prefix_append_cases {p xs ys : List α} (h : p <+: xs ++ ys) :
    p <+: xs ∨ ∃ q, q <+: ys ∧ p = xs ++ q := by
  rcases List.prefix_or_prefix_of_prefix h (List.prefix_append xs ys) with hp | ⟨q, rfl⟩
  · exact .inl hp
  · exact .inr ⟨q, (List.prefix_append_right_inj xs).mp h, rfl⟩

omit [DecidableEq Id] in
theorem foldl_activate_initializeModule (ms active : List Mod) :
    (ms.map (@Event.initializeModule Id Mod · true)).foldl activate active = active ++ ms := by
  induction ms generalizing active with
  | nil => simp
  | cons m ms ih => simp [ih, activate]

omit [DecidableEq Id] in
/-- Terminating the last active modules, last first, leaves the ones before them. -/
theorem foldl_activate_terminate (ms active : List Mod) (hn : (active ++ ms.reverse).Nodup) :
    (ms.map (@Event.terminate Id Mod)).foldl activate (active ++ ms.reverse) = active := by
  induction ms with
  | nil => simp
  | cons m ms ih =>
    rw [List.reverse_cons, ← List.append_assoc] at hn ⊢
    rw [List.nodup_append] at hn
    obtain ⟨hn, _, hm⟩ := hn
    have hnot : m ∉ active ++ ms.reverse := fun hin => hm m hin m (by simp) rfl
    simp only [List.map_cons, List.foldl_cons, activate]
    rw [List.erase_append_right _ hnot, List.erase_cons_head, List.append_nil]
    exact ih hn

theorem not_mem_of_concat_prefix {ms order : List α} {m : α} (hn : order.Nodup)
    (hp : ms ++ [m] <+: order) : m ∉ ms := by
  have := hn.sublist hp.sublist
  rw [List.nodup_append] at this
  exact fun hin => this.2.2 m hin m (by simp) rfl

omit [DecidableEq Id] in
/-- A module that fails to initialize is never active. -/
theorem foldl_activate_failed {order active : List Mod} {failed : Option Mod} (hn : order.Nodup)
    (hp : active ++ failed.toList <+: order) {calls : List (Event Id Mod)}
    (hc : calls <+: failed.toList.flatMap (fun m => [.initializeModule m false, .terminate m])) :
    calls.foldl activate active = active := by
  cases failed with
  | none =>
    obtain rfl := List.prefix_nil.mp hc
    rfl
  | some m =>
    have hnot := not_mem_of_concat_prefix hn hp
    rcases List.prefix_cons_iff.mp hc with rfl | ⟨calls, rfl, hlast⟩
    · rfl
    · rcases List.prefix_cons_iff.mp hlast with rfl | ⟨calls, rfl, hnil⟩
      · rfl
      · obtain rfl := List.prefix_nil.mp hnil
        simp [activate, List.erase_of_not_mem hnot]

section Order
variable {order activated : List Mod} {calls : List (Event Id Mod)}
variable (hn : order.Nodup) (hc : BootCalls order activated calls)
include hn hc

omit [DecidableEq Id] in
theorem BootCalls.activeAfter : activeAfter calls = activated := by
  obtain ⟨failed, hp, _, rfl⟩ := hc
  rw [Module.activeAfter, startCalls, List.foldl_append, foldl_activate_initializeModule, List.nil_append]
  exact foldl_activate_failed hn hp (List.prefix_refl _)

omit [DecidableEq Id] in
/-- At every moment of a run what is active is a first part of the initialization order. -/
theorem BootCalls.active_moment {pre : List (Event Id Mod)}
    (hpre : pre <+: calls ++ activated.reverse.map Event.terminate) :
    Module.activeAfter pre <+: order := by
  have hfull := hc.activeAfter hn
  obtain ⟨failed, hp, _, rfl⟩ := hc
  have hpart : activated <+: order := (List.prefix_append ..).trans hp
  rcases prefix_append_cases hpre with hpre | ⟨q, hq, rfl⟩
  · rcases prefix_append_cases hpre with hpre | ⟨q, hq, rfl⟩
    · obtain ⟨ms, hms, rfl⟩ := List.prefix_map_iff.mp hpre
      rw [Module.activeAfter, foldl_activate_initializeModule]
      exact hms.trans hpart
    · rw [Module.activeAfter, List.foldl_append, foldl_activate_initializeModule, List.nil_append,
        foldl_activate_failed hn hp hq]
      exact hpart
  · obtain ⟨ms, ⟨rest, hrest⟩, rfl⟩ := List.prefix_map_iff.mp hq
    have hact : activated = rest.reverse ++ ms.reverse := by
      rw [← List.reverse_reverse activated, ← hrest, List.reverse_append]
    have hnd : (rest.reverse ++ ms.reverse).Nodup := hact ▸ hn.sublist hpart.sublist
    rw [Module.activeAfter] at hfull ⊢
    rw [List.foldl_append, hfull, hact, foldl_activate_terminate _ _ hnd]
    exact (List.prefix_append rest.reverse ms.reverse).trans (hact ▸ hpart)

end Order

end Active

/-- The modules a run activates, in order. -/
def activatedBy (trace : List (Event Id Mod)) : List Mod :=
  trace.filterMap fun event => match event with
    | .initializeModule pModule true => some pModule
    | _ => none

def DependenciesActive (I : Interface Id Mod) (modules active : List Mod) : Prop :=
  ∀ m ∈ active, ∀ d ∈ I.getDependencies m,
    (d.kind = .required → ∃ p ∈ active, d.pModule = some (I.getId p)) ∧
    (d.kind = .optional → ∀ p ∈ modules, d.pModule = some (I.getId p) → p ∈ active)

/-- What a run owes its modules: whoever is initialized is terminated once, nobody
else is, the active ones go last in first out after a failed one has gone at once,
and nobody is active without what it depends on. -/
structure RunsOrderly (I : Interface Id Mod) (modules : List Mod) (trace : List (Event Id Mod)) :
    Prop where
  terminatedOnce : ∀ m ok, .initializeModule m ok ∈ trace → trace.count (.terminate m) = 1
  onlyInitialized : ∀ m, .terminate m ∈ trace → ∃ ok, .initializeModule m ok ∈ trace
  reversed : ∃ failed, moduleCalls trace = runCalls (activatedBy trace) failed
  dependenciesActive : ∀ moment, moment <+: trace →
    DependenciesActive I modules (activeAfter moment)

omit [DecidableEq Id] [DecidableEq Mod] in
theorem mem_moduleCalls {trace : List (Event Id Mod)} {event : Event Id Mod}
    (h : event.isModuleCall = true) : event ∈ moduleCalls trace ↔ event ∈ trace := by
  simp [moduleCalls, h]

omit [DecidableEq Id] [DecidableEq Mod] in
theorem activatedBy_moduleCalls (trace : List (Event Id Mod)) :
    activatedBy (moduleCalls trace) = activatedBy trace := by
  rw [activatedBy, moduleCalls, List.filterMap_filter, activatedBy]
  congr 1
  funext event
  cases event <;> simp [Event.isModuleCall]

omit [DecidableEq Id] [DecidableEq Mod] in
theorem activatedBy_runCalls (activated : List Mod) (failed : Option Mod) :
    activatedBy (@runCalls Id Mod activated failed) = activated := by
  cases failed <;>
    simp [activatedBy, runCalls, startCalls, List.filterMap_append, List.filterMap_map]

section Assemble
variable {activated : List Mod} {failed : Option Mod} {trace : List (Event Id Mod)}
variable (hn : (activated ++ failed.toList).Nodup)
variable (ht : moduleCalls trace = runCalls activated failed)
include ht

omit [DecidableEq Id] [DecidableEq Mod] in
theorem mem_initializeModule {m : Mod} {ok : Bool} : .initializeModule m ok ∈ trace ↔
    (m ∈ activated ∧ ok = true) ∨ (failed = some m ∧ ok = false) := by
  rw [← mem_moduleCalls rfl, ht, mem_runCalls_initializeModule]

theorem count_terminate (m : Mod) :
    trace.count (.terminate m) = (activated ++ failed.toList).count m := by
  rw [← @count_runCalls_terminate Id, ← ht, moduleCalls, List.count_filter rfl]

include hn in
theorem terminatedOnce (m : Mod) (ok : Bool) (hm : .initializeModule m ok ∈ trace) :
    trace.count (.terminate m) = 1 := by
  rw [count_terminate ht]
  apply List.count_eq_one_of_mem hn
  rcases (mem_initializeModule ht).mp hm with ⟨hm, _⟩ | ⟨rfl, _⟩
  · exact List.mem_append_left _ hm
  · simp

theorem onlyInitialized (m : Mod) (hm : .terminate m ∈ trace) : ∃ ok, .initializeModule m ok ∈ trace := by
  have hpos : 0 < trace.count (.terminate m) := List.count_pos_iff.mpr hm
  rw [count_terminate ht, List.count_pos_iff] at hpos
  rcases List.mem_append.mp hpos with h | h
  · exact ⟨true, (mem_initializeModule ht).mpr (.inl ⟨h, rfl⟩)⟩
  · exact ⟨false, (mem_initializeModule ht).mpr (.inr ⟨Option.mem_toList.mp h, rfl⟩)⟩

end Assemble

section Boots
variable (history : List (Boot Mod)) (boot : Boot Mod)

/-- The shape of one boot's module calls, whatever came before it. -/
theorem trace_runCalls : ∃ failed,
    (bootOutcome I boot.context boot.succeeds).2.1 ++ failed.toList <+:
      initializationOrder I boot.context ∧
    moduleCalls (boot.trace I (afterBoots I history)) =
      runCalls (bootOutcome I boot.context boot.succeeds).2.1 failed := by
  obtain ⟨failed, hp, _, hcalls⟩ := bootOutcome_calls (I := I) boot.context boot.succeeds
  exact ⟨failed, hp, by rw [trace_calls (afterBoots_idle history), hcalls]; rfl⟩

theorem activeAfter_prefix {moment : List (Event Id Mod)}
    (h : moment <+: boot.trace I (afterBoots I history)) :
    activeAfter moment <+: initializationOrder I boot.context := by
  have hpre : moduleCalls moment <+: moduleCalls (boot.trace I (afterBoots I history)) :=
    h.filter _
  rw [trace_calls (afterBoots_idle history)] at hpre
  rw [← activeAfter_moduleCalls]
  exact (bootOutcome_calls (I := I) boot.context boot.succeeds).active_moment
    (initializationOrder_spec I boot.context).1 hpre

end Boots

omit [DecidableEq Id] [DecidableEq Mod] in
/-- Along an order with needs first, every first part has what its members depend on. -/
theorem dependenciesActive_of_prefix {modules order active : List Mod}
    (hchecks : ChecksPass I modules) (hs : ∀ m ∈ order, m ∈ modules)
    (ho : StableOrder.NeedsFirst (DeclaresOrdering I) modules order) (hp : active <+: order) :
    DependenciesActive I modules active := by
  have hclosed : ∀ m ∈ active, ∀ p ∈ modules, DeclaresOrdering I m p → p ∈ active := by
    intro m hm p hpm hd
    obtain ⟨rest, rfl⟩ := hp
    obtain ⟨pre, post, rfl⟩ := List.append_of_mem hm
    have := ho.of_append pre m post rfl p hpm hd
    simp [this]
  intro m hm d hd
  constructor
  · intro hk
    obtain ⟨_, hdeps⟩ := hchecks m (hs m (hp.subset hm))
    obtain ⟨id, hid, hpresent, _⟩ := hdeps d hd
    obtain ⟨p, hpm, rfl⟩ := hpresent hk
    exact ⟨p, hclosed m hm p hpm ⟨d, hd, .inl hk, hid⟩, hid⟩
  · intro hk p hpm hid
    exact hclosed m hm p hpm ⟨d, hd, .inr hk, hid⟩

omit [DecidableEq Id] in
theorem distinctIds_eraseDups {modules : List Mod} (h : DistinctIds I modules) :
    (modules.eraseDups.map I.getId).Nodup := by
  apply List.Nodup.map_on _ (nodup_eraseDups modules)
  intro a ha b hb he
  exact h a (List.mem_eraseDups.mp ha) b (List.mem_eraseDups.mp hb) he

/-- Every boot runs orderly, unless it gets past the checks with a pending count that wraps. -/
theorem trace_runsOrderly (history : List (Boot Mod)) (boot : Boot Mod)
    (hids : DistinctIds I boot.context.modules)
    (hf : ¬ ChecksPass I boot.context.modules.eraseDups ∨ CountersFit I boot.context.modules.eraseDups) :
    RunsOrderly I boot.context.modules (boot.trace I (afterBoots I history)) := by
  obtain ⟨failed, hp, ht⟩ := trace_runCalls (I := I) history boot
  have hn := (initializationOrder_spec I boot.context).1.sublist hp.sublist
  refine ⟨terminatedOnce hn ht, onlyInitialized ht, ⟨failed, ?_⟩, ?_⟩
  · rw [← activatedBy_moduleCalls, ht, activatedBy_runCalls]
  · intro moment hm
    have hact := activeAfter_prefix history boot hm
    by_cases hr : (resolve I boot.context.modules.eraseDups).resolved = true
    · simp only [initializationOrder, hr, if_true] at hact
      have hfit := hf.resolve_left fun hno => hno (resolve_checks hr)
      obtain ⟨hg, hperm⟩ := resolve_greedy (distinctIds_eraseDups hids) hfit hr
      have hdeps := dependenciesActive_of_prefix (resolve_checks hr) (fun m => hperm.mem_iff.mp)
        hg.needsFirst hact
      intro m hm d hd
      obtain ⟨hreq, hopt⟩ := hdeps m hm d hd
      exact ⟨hreq, fun hk p hp => hopt hk p (List.mem_eraseDups.mpr hp)⟩
    · simp only [initializationOrder, hr] at hact
      obtain h := List.prefix_nil.mp hact
      intro m hm
      rw [h] at hm
      cases hm

/-- One boot of a context whose modules all initialize. -/
def bootOf (modules : List Bool) : Boot Bool where
  context := { modules, schedule := [], noTick := modules }
  succeeds _ := true
  calls := [.update 0]

theorem trace_runsOrderly_once : RunsOrderly (requireTimes 1) [true, false]
    ((bootOf [true, false]).trace (requireTimes 1) (afterBoots (requireTimes 1) [])) :=
  trace_runsOrderly [] (bootOf [true, false]) (fun _ _ _ _ h => h) (.inr (by decide))

/-- With 2^32 declarations the dependent is active before what it requires. -/
theorem trace_active_alone : DistinctIds (requireTimes (2 ^ 32)) [true, false] ∧
    ¬ RunsOrderly (requireTimes (2 ^ 32)) [true, false]
      ((bootOf [true, false]).trace (requireTimes (2 ^ 32)) (afterBoots (requireTimes (2 ^ 32)) [])) := by
  refine ⟨fun _ _ _ _ h => h, fun h => ?_⟩
  obtain ⟨hres, hord⟩ := resolve_requireTimes_wrapped
  have hdup : (bootOf [true, false]).context.modules.eraseDups = [true, false] := by decide
  have hcalls := trace_calls (I := requireTimes (2 ^ 32))
    (afterBoots_idle (I := requireTimes (2 ^ 32)) []) (bootOf [true, false])
  have hout : moduleCalls (bootOutcome (requireTimes (2 ^ 32)) (bootOf [true, false]).context
      (bootOf [true, false]).succeeds).2.2 =
        [.initializeModule true true, .initializeModule false true] := by
    simp only [bootOutcome, hdup, hres, hord, if_true]
    exact initializeLoop_succeeds [true, false] (fun _ => rfl) [true, false] []
  have hpre : [Event.initializeModule true true] <+: moduleCalls ((bootOf [true, false]).trace
      (requireTimes (2 ^ 32)) (afterBoots (requireTimes (2 ^ 32)) [])) := by
    rw [hcalls]
    exact (List.prefix_append_of_prefix (by rw [hout]; simp))
  obtain ⟨moment, hm, hcall⟩ := List.prefix_filter_iff.mp hpre
  have hact : activeAfter moment = [true] := by
    rw [← activeAfter_moduleCalls, moduleCalls, ← hcall]
    rfl
  have hdep : ({ pModule := some false } : SDependency Bool) ∈
      (requireTimes (2 ^ 32)).getDependencies true := List.mem_replicate.mpr ⟨by decide, rfl⟩
  have hno := h.dependenciesActive moment hm
  rw [hact] at hno
  obtain ⟨p, hp, he⟩ := (hno true (by simp) _ hdep).1 rfl
  rw [List.mem_singleton.mp hp] at he
  cases he

end TgeCore.Module
