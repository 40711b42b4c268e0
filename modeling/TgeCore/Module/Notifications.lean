import TgeCore.Module.Lifecycle

namespace TgeCore.Module
open Library

variable {Id Mod : Type} [DecidableEq Id] [DecidableEq Mod] {I : Interface Id Mod}

/-- What a run owes the modules that declare another one: OnDependencyInitialized once for
its successful Initialize, OnDependencyTerminating once before its Terminate if it was
active, and nothing after their own Terminate. One that fails to initialize is not announced. -/
structure NotifiesDependents (I : Interface Id Mod) (modules : List Mod)
    (trace : List (Event Id Mod)) : Prop where
  initialized : ∀ d ∈ modules, ∀ m, trace.count (.onDependencyInitialized m (I.getId d)) =
    if .initializeModule d true ∈ trace ∧ m ∈ modules ∧ declares I m d = true then 1 else 0
  failed : ∀ d, .initializeModule d false ∈ trace → .initializeModule d true ∉ trace
  terminating : ∀ before d after, trace = before ++ .terminate d :: after → ∀ m,
    before.count (.onDependencyTerminating m (I.getId d)) =
        (if d ∈ activeAfter before ∧ m ∈ activeAfter before ∧ m ≠ d ∧ declares I m d = true then 1
          else 0) ∧
      .onDependencyTerminating m (I.getId d) ∉ after
  afterwards : ∀ before m after, trace = before ++ .terminate m :: after →
    ∀ id, .onDependencyTerminating m id ∉ after
  named : ∀ m id, .onDependencyInitialized m id ∈ trace ∨ .onDependencyTerminating m id ∈ trace →
    ∃ d ∈ modules, I.getId d = id

/-- Whoever declares a module Required or Optional is gone before that module goes. -/
def OutlivesDependents (I : Interface Id Mod) (trace : List (Event Id Mod)) : Prop :=
  ∀ d m, DeclaresOrdering I m d → .onDependencyTerminating m (I.getId d) ∉ trace ∧
    ∀ before after, trace = before ++ .terminate d :: after →
      ∀ ok, .initializeModule m ok ∈ trace → .terminate m ∈ before

/-- What a run does about its modules, notifications included. -/
def signals (events : List (Event Id Mod)) : List (Event Id Mod) :=
  events.filter fun event => !event.isQuiet

/-- The OnDependencyTerminating calls before a module's Terminate. -/
def notices (I : Interface Id Mod) (active : List Mod) (pModule : Mod) : List (Event Id Mod) :=
  (active.filter fun pDependent => pDependent ≠ pModule && declares I pDependent pModule).map
    fun pDependent => .onDependencyTerminating pDependent (I.getId pModule)

/-- The teardown of some modules, last activated first, while others are still active. -/
def farewells (I : Interface Id Mod) : List Mod → List Mod → List (Event Id Mod)
  | [], _ => []
  | pModule :: later, rest => notices I (pModule :: later ++ rest).reverse pModule ++
      .terminate pModule :: farewells I later rest

/-- The initialization of some modules that all succeed. -/
def greetings (I : Interface Id Mod) (modules activated : List Mod) : List (Event Id Mod) :=
  activated.flatMap fun pModule =>
    .initializeModule pModule true :: notifyDependentsInitialized I modules pModule

def failure (failed : Option Mod) : List (Event Id Mod) :=
  failed.toList.flatMap fun pModule => [.initializeModule pModule false, .terminate pModule]

section Shape

omit [DecidableEq Id] [DecidableEq Mod] in
theorem signals_append (xs ys : List (Event Id Mod)) : signals (xs ++ ys) = signals xs ++ signals ys :=
  List.filter_append ..

omit [DecidableEq Id] [DecidableEq Mod] in
theorem mem_signals {event : Event Id Mod} (h : event.isQuiet = false) (events : List (Event Id Mod)) :
    event ∈ signals events ↔ event ∈ events := by
  rw [signals, List.mem_filter, h]
  simp

theorem count_signals {event : Event Id Mod} (h : event.isQuiet = false)
    (events : List (Event Id Mod)) : (signals events).count event = events.count event := by
  rw [signals, List.count_filter (by rw [h]; rfl)]

omit [DecidableEq Mod] in
theorem signals_notifyDependentsInitialized (modules : List Mod) (m : Mod) :
    signals (notifyDependentsInitialized I modules m) = notifyDependentsInitialized I modules m := by
  apply List.filter_eq_self.mpr
  intro event he
  obtain ⟨_, _, rfl⟩ := List.mem_map.mp he
  rfl

theorem signals_terminateLoop (active : List Mod) :
    signals (terminateLoop I active) = farewells I active [] := by
  induction active with
  | nil => rfl
  | cons m earlier ih =>
    have hnotices : signals (notices I (m :: earlier).reverse m) = notices I (m :: earlier).reverse m := by
      apply List.filter_eq_self.mpr
      intro event he
      obtain ⟨_, _, rfl⟩ := List.mem_map.mp he
      rfl
    simp only [terminateLoop, farewells, signals_append, ih, List.append_nil]
    rw [← notices, hnotices, List.append_assoc]
    rfl

omit [DecidableEq Mod] in
theorem signals_initializeLoop (modules : List Mod) (succeeds : Mod → Bool) (order active : List Mod) :
    ∃ activated failed,
      (initializeLoop I modules succeeds order active).2.1 = active ++ activated ∧
        activated ++ failed.toList <+: order ∧
        signals (initializeLoop I modules succeeds order active).2.2 =
          greetings I modules activated ++ failure failed := by
  induction order generalizing active with
  | nil => exact ⟨[], none, by simp [initializeLoop], List.nil_prefix, rfl⟩
  | cons m rest ih =>
    simp only [initializeLoop]
    split
    · obtain ⟨activated, failed, hact, hpre, hsignals⟩ := ih (active ++ [m])
      refine ⟨m :: activated, failed, by simp [hact], List.cons_prefix_cons.mpr ⟨rfl, hpre⟩, ?_⟩
      have hstart : signals [.log ⟨.info, "Initializing " ++ I.moduleName m ++ "..."⟩,
          .initializeModule m true] = ([.initializeModule m true] : List (Event Id Mod)) := rfl
      rw [signals_append, signals_append, signals_notifyDependentsInitialized, hsignals, hstart]
      simp [greetings]
    · exact ⟨[], some m, by simp, by simp, rfl⟩

/-- The shape of what one boot does about its modules, whatever came before it. -/
theorem signals_trace (history : List (Boot Mod)) (boot : Boot Mod) : ∃ activated failed,
    activated ++ failed.toList <+: initializationOrder I boot.context ∧
      signals (boot.trace I (afterBoots I history)) =
        greetings I boot.context.modules.eraseDups activated ++ failure failed ++
          farewells I activated.reverse [] := by
  have hquiet : ∀ event : Event Id Mod, event.isQuiet = true → (!event.isQuiet) = false := by
    intro event he
    rw [he]
    rfl
  have htrace := trace_filter (I := I) hquiet (afterBoots_idle (I := I) history) boot
  rw [signals, htrace, ← signals, ← signals, signals_terminateLoop]
  simp only [initializationOrder, bootOutcome]
  split
  · obtain ⟨activated, failed, hact, hpre, hsignals⟩ := signals_initializeLoop (I := I)
      boot.context.modules.eraseDups boot.succeeds (resolve I boot.context.modules.eraseDups).order []
    refine ⟨activated, failed, hpre, ?_⟩
    rw [hsignals, hact, List.nil_append]
  · exact ⟨[], none, List.nil_prefix, rfl⟩

end Shape

section Members
variable {modules : List Mod}

omit [DecidableEq Mod] in
theorem mem_greetings {activated : List Mod} {event : Event Id Mod} :
    event ∈ greetings I modules activated ↔ ∃ d ∈ activated, event = .initializeModule d true ∨
      ∃ m ∈ modules, declares I m d = true ∧ event = .onDependencyInitialized m (I.getId d) := by
  simp only [greetings, notifyDependentsInitialized, List.mem_flatMap, List.mem_cons, List.mem_map,
    List.mem_filter]
  constructor
  · rintro ⟨d, hd, rfl | ⟨m, ⟨hm, hdeclares⟩, rfl⟩⟩
    · exact ⟨d, hd, .inl rfl⟩
    · exact ⟨d, hd, .inr ⟨m, hm, hdeclares, rfl⟩⟩
  · rintro ⟨d, hd, rfl | ⟨m, hm, hdeclares, rfl⟩⟩
    · exact ⟨d, hd, .inl rfl⟩
    · exact ⟨d, hd, .inr ⟨m, ⟨hm, hdeclares⟩, rfl⟩⟩

omit [DecidableEq Id] [DecidableEq Mod] in
theorem mem_failure {failed : Option Mod} {event : Event Id Mod} : event ∈ failure failed ↔
    ∃ d, failed = some d ∧ (event = .initializeModule d false ∨ event = .terminate d) := by
  cases failed <;> simp [failure]

/-- Whom a teardown notifies was active before the one it terminates. -/
theorem mem_farewells {later rest : List Mod} {event : Event Id Mod} (h : event ∈ farewells I later rest) :
    (∃ d ∈ later, event = .terminate d) ∨
      ∃ pre d post m, later = pre ++ d :: post ∧ m ∈ post ++ rest ∧ declares I m d = true ∧
        event = .onDependencyTerminating m (I.getId d) := by
  induction later with
  | nil => cases h
  | cons d later ih =>
    rcases List.mem_append.mp h with h | h
    · obtain ⟨m, hm, rfl⟩ := List.mem_map.mp h
      obtain ⟨hin, hm⟩ := List.mem_filter.mp hm
      obtain ⟨hne, hdeclares⟩ := Bool.and_eq_true_iff.mp hm
      have hother : m ∈ later ++ rest := by
        rcases List.mem_cons.mp (List.mem_reverse.mp hin) with he | hin
        · exact absurd he (of_decide_eq_true hne)
        · exact hin
      exact .inr ⟨[], d, later, m, rfl, hother, hdeclares, rfl⟩
    · rcases List.mem_cons.mp h with rfl | h
      · exact .inl ⟨d, List.mem_cons_self, rfl⟩
      · rcases ih h with ⟨x, hx, rfl⟩ | ⟨pre, x, post, m, rfl, hm, hdeclares, rfl⟩
        · exact .inl ⟨x, List.mem_cons_of_mem _ hx, rfl⟩
        · exact .inr ⟨d :: pre, x, post, m, rfl, hm, hdeclares, rfl⟩

theorem terminate_mem_farewells {later rest : List Mod} {d : Mod} :
    .terminate d ∈ farewells I later rest ↔ d ∈ later := by
  constructor
  · intro h
    rcases mem_farewells h with ⟨x, hx, he⟩ | ⟨_, _, _, _, _, _, _, he⟩
    · exact Event.terminate.inj he ▸ hx
    · cases he
  · intro h
    induction later with
    | nil => cases h
    | cons x later ih =>
      apply List.mem_append_right
      rcases List.mem_cons.mp h with rfl | h
      · exact List.mem_cons_self
      · exact List.mem_cons_of_mem _ (ih h)

theorem farewells_append (later others rest : List Mod) : farewells I (later ++ others) rest =
    farewells I later (others ++ rest) ++ farewells I others rest := by
  induction later with
  | nil => rfl
  | cons d later ih => simp [farewells, ih]

end Members

section Counts
variable {modules : List Mod}

/-- Each active dependent is notified once. -/
theorem count_notices {active : List Mod} (hn : active.Nodup) (d m : Mod) :
    (notices I active d).count (.onDependencyTerminating m (I.getId d)) =
      if m ∈ active ∧ m ≠ d ∧ declares I m d = true then 1 else 0 := by
  have hinj : Function.Injective fun m => @Event.onDependencyTerminating Id Mod m (I.getId d) :=
    fun _ _ h => (Event.onDependencyTerminating.inj h).1
  rw [notices, List.count_map_of_injective _ _ hinj]
  split
  · rename_i h
    rw [List.count_filter (by simp [h])]
    exact List.count_eq_one_of_mem hn h.1
  · rename_i h
    rw [List.count_eq_zero, List.mem_filter]
    rintro ⟨hin, hm⟩
    exact h ⟨hin, by simpa using hm⟩

omit [DecidableEq Id] [DecidableEq Mod] in
theorem mem_of_eq_append {xs pre post : List Mod} {x : Mod} (h : xs = pre ++ x :: post) : x ∈ xs := by
  rw [h]
  exact List.mem_append_right _ List.mem_cons_self

variable (hids : DistinctIds I modules) (hn : modules.Nodup)
include hids

/-- Nobody is notified of a module that a teardown does not terminate. -/
theorem notice_not_mem_farewells {later rest : List Mod} (hlater : ∀ x ∈ later, x ∈ modules) {d : Mod}
    (hd : d ∈ modules) (hnot : d ∉ later) (m : Mod) :
    .onDependencyTerminating m (I.getId d) ∉ farewells I later rest := by
  intro h
  rcases mem_farewells h with ⟨_, _, he⟩ | ⟨pre, x, post, _, hsplit, _, _, he⟩
  · cases he
  · have hx := mem_of_eq_append hsplit
    have hsame := hids d hd x (hlater x hx) (Event.onDependencyTerminating.inj he).2
    exact hnot (hsame ▸ hx)

include hn in
/-- Every registered module that declares an activated one hears of it once. -/
theorem count_greetings {activated : List Mod} (hact : ∀ x ∈ activated, x ∈ modules)
    (hnodup : activated.Nodup) {d : Mod} (hd : d ∈ modules) (m : Mod) :
    (greetings I modules activated).count (.onDependencyInitialized m (I.getId d)) =
      if d ∈ activated ∧ m ∈ modules ∧ declares I m d = true then 1 else 0 := by
  have hnone : ∀ others : List Mod, (∀ x ∈ others, x ∈ modules) → d ∉ others →
      (greetings I modules others).count (.onDependencyInitialized m (I.getId d)) = 0 := by
    intro others hothers hnot
    rw [List.count_eq_zero, mem_greetings]
    rintro ⟨x, hx, he | ⟨_, _, _, he⟩⟩
    · cases he
    · have hsame := hids d hd x (hothers x hx) (Event.onDependencyInitialized.inj he).2
      exact hnot (hsame ▸ hx)
  by_cases hin : d ∈ activated
  · obtain ⟨pre, post, rfl⟩ := List.append_of_mem hin
    obtain ⟨hpre, hpost⟩ := StableOrder.not_mem_around hnodup
    have hinj : Function.Injective fun m => @Event.onDependencyInitialized Id Mod m (I.getId d) :=
      fun _ _ h => (Event.onDependencyInitialized.inj h).1
    have hsplit : greetings I modules (pre ++ d :: post) = greetings I modules pre ++
        (.initializeModule d true :: notifyDependentsInitialized I modules d ++
          greetings I modules post) := by simp [greetings]
    rw [hsplit, List.count_append, List.count_append, List.count_cons_of_ne (by simp),
      hnone pre (fun x hx => hact x (by simp [hx])) hpre,
      hnone post (fun x hx => hact x (by simp [hx])) hpost, notifyDependentsInitialized,
      List.count_map_of_injective _ _ hinj, Nat.zero_add, Nat.add_zero]
    simp only [hin, true_and]
    split
    · rename_i h
      rw [List.count_filter (p := fun m => declares I m d) h.2]
      exact List.count_eq_one_of_mem hn h.1
    · rename_i h
      rw [List.count_eq_zero, List.mem_filter]
      exact h
  · rw [hnone activated hact hin, if_neg fun h => hin h.1]

end Counts

section Active

omit [DecidableEq Id] in
theorem activeAfter_signals (events : List (Event Id Mod)) :
    activeAfter (signals events) = activeAfter events := by
  unfold activeAfter signals
  rw [List.foldl_filter]
  congr 1
  funext active event
  cases event <;> rfl

omit [DecidableEq Mod] in
theorem greetings_calls (modules activated : List Mod) : moduleCalls (greetings I modules activated) =
    activated.map (Event.initializeModule · true) := by
  induction activated with
  | nil => rfl
  | cons m activated ih =>
    rw [greetings, List.flatMap_cons, ← greetings, moduleCalls_append, ih]
    have hone := notifyDependentsInitialized_calls (I := I) modules m
    simp only [moduleCalls] at hone ⊢
    rw [List.filter_cons_of_pos rfl, hone]
    rfl

omit [DecidableEq Id] [DecidableEq Mod] in
theorem failure_calls (failed : Option Mod) :
    moduleCalls (failure failed) = (failure failed : List (Event Id Mod)) := by
  cases failed <;> rfl

theorem notices_calls (active : List Mod) (m : Mod) : moduleCalls (notices I active m) = [] := by
  apply moduleCalls_eq_nil
  intro event he
  obtain ⟨_, _, rfl⟩ := List.mem_map.mp he
  rfl

theorem farewells_calls (later rest : List Mod) :
    moduleCalls (farewells I later rest) = later.map Event.terminate := by
  induction later with
  | nil => rfl
  | cons m later ih =>
    rw [farewells, moduleCalls_append, notices_calls, List.nil_append, List.map_cons, ← ih]
    rfl

variable {modules activated : List Mod} {failed : Option Mod}
variable (hn : (activated ++ failed.toList).Nodup)
include hn

/-- When a module that failed is terminated, the active modules are those before it. -/
theorem activeAfter_failed {d : Mod} (hf : failed = some d) :
    activeAfter (greetings I modules activated ++ [.initializeModule d false]) = activated := by
  subst hf
  have hpre : [.initializeModule d false] <+: (failure (some d) : List (Event Id Mod)) := by
    simp [failure]
  rw [← activeAfter_moduleCalls, moduleCalls_append, greetings_calls]
  have hone : moduleCalls [(.initializeModule d false : Event Id Mod)] = [.initializeModule d false] :=
    rfl
  rw [hone, activeAfter, List.foldl_append, foldl_activate_initializeModule, List.nil_append]
  exact foldl_activate_failed hn (List.prefix_refl _) hpre

/-- When an active module is terminated, those that became active after it are gone. -/
theorem activeAfter_farewells {pre post : List Mod} {d : Mod} (hsplit : activated = pre ++ d :: post) :
    activeAfter (greetings I modules activated ++ failure failed ++
      farewells I post.reverse (d :: pre.reverse) ++ notices I (pre ++ [d]) d) = pre ++ [d] := by
  have hcalls : BootCalls (activated ++ failed.toList) activated
      (startCalls activated failed : List (Event Id Mod)) :=
    ⟨failed, List.prefix_refl _, fun hf => by simp [hf], rfl⟩
  have hstart := hcalls.activeAfter hn
  rw [← activeAfter_moduleCalls, moduleCalls_append, moduleCalls_append, moduleCalls_append,
    greetings_calls, failure_calls, farewells_calls, notices_calls, List.append_nil]
  rw [activeAfter, startCalls] at hstart
  rw [activeAfter, List.foldl_append, failure, hstart]
  have hact : activated = (pre ++ [d]) ++ post.reverse.reverse := by simp [hsplit]
  rw [hact]
  apply foldl_activate_terminate
  rw [← hact]
  exact (List.nodup_append.mp hn).1

end Active

section Run
variable {modules activated : List Mod} {failed : Option Mod} {trace : List (Event Id Mod)}
variable (hshape : signals trace =
  greetings I modules activated ++ failure failed ++ farewells I activated.reverse [])
variable (hnodup : (activated ++ failed.toList).Nodup)
include hshape

theorem mem_trace_initializeModule {m : Mod} {ok : Bool} : .initializeModule m ok ∈ trace ↔
    (m ∈ activated ∧ ok = true) ∨ (failed = some m ∧ ok = false) := by
  rw [← mem_signals rfl, hshape, List.mem_append, List.mem_append, mem_greetings, mem_failure]
  constructor
  · rintro ((⟨d, hd, he | ⟨_, _, _, he⟩⟩ | ⟨d, hd, he | he⟩) | h)
    · cases he
      exact .inl ⟨hd, rfl⟩
    · cases he
    · cases he
      exact .inr ⟨hd, rfl⟩
    · cases he
    · rcases mem_farewells h with ⟨_, _, he⟩ | ⟨_, _, _, _, _, _, _, he⟩
      · cases he
      · cases he
  · rintro (⟨hm, rfl⟩ | ⟨hf, rfl⟩)
    · exact .inl (.inl ⟨m, hm, .inl rfl⟩)
    · exact .inl (.inr ⟨m, hf, .inl rfl⟩)

theorem mem_trace_onDependencyTerminating {m : Mod} {id : Id}
    (h : .onDependencyTerminating m id ∈ trace) : ∃ pre d post, activated = pre ++ d :: post ∧
      m ∈ pre ∧ declares I m d = true ∧ I.getId d = id := by
  rw [← mem_signals rfl, hshape, List.mem_append, List.mem_append, mem_greetings, mem_failure] at h
  rcases h with (⟨_, _, he | ⟨_, _, _, he⟩⟩ | ⟨_, _, he | he⟩) | h
  · cases he
  · cases he
  · cases he
  · cases he
  · rcases mem_farewells h with ⟨_, _, he⟩ | ⟨pre, d, post, x, hsplit, hx, hdeclares, he⟩
    · cases he
    · cases he
      refine ⟨post.reverse, d, pre.reverse, ?_, by simpa using hx, hdeclares, rfl⟩
      rw [← List.reverse_reverse activated, hsplit]
      simp

include hnodup in
/-- Where a module is terminated in a run: at once if it failed, else in the
teardown, after the modules activated later and before those activated earlier. -/
theorem split_terminate {before after : List (Event Id Mod)} {d : Mod}
    (ht : trace = before ++ .terminate d :: after) :
    (failed = some d ∧
      signals before = greetings I modules activated ++ [.initializeModule d false] ∧
      signals after = farewells I activated.reverse []) ∨
    ∃ pre post, activated = pre ++ d :: post ∧
      signals before = greetings I modules activated ++ failure failed ++
        farewells I post.reverse (d :: pre.reverse) ++ notices I (pre ++ [d]) d ∧
      signals after = farewells I pre.reverse [] := by
  have hsplit : signals trace = signals before ++ .terminate d :: signals after := by
    rw [ht, signals_append]
    rfl
  rw [hshape] at hsplit
  have hgreetings : ∀ x : Mod, .terminate x ∉ greetings I modules activated := by
    intro x hin
    obtain ⟨_, _, he | ⟨_, _, _, he⟩⟩ := mem_greetings.mp hin
    · cases he
    · cases he
  have hin : .terminate d ∈ greetings I modules activated ++ failure failed ++
      farewells I activated.reverse [] := by
    rw [hsplit]
    simp
  rw [List.mem_append, List.mem_append, mem_failure, terminate_mem_farewells, List.mem_reverse] at hin
  rcases hin with (hin | ⟨_, hf, he | he⟩) | hin
  · exact absurd hin (hgreetings d)
  · cases he
  · obtain rfl := Event.terminate.inj he
    subst hf
    have hnot : d ∉ activated := not_mem_of_concat_prefix hnodup (List.prefix_refl _)
    have hexplicit : greetings I modules activated ++ failure (some d) ++
        farewells I activated.reverse [] = (greetings I modules activated ++
          [.initializeModule d false]) ++ .terminate d :: farewells I activated.reverse [] := by
      simp [failure]
    rw [hexplicit] at hsplit
    obtain ⟨hbefore, _, hafter⟩ := (List.append_cons_inj_of_notMem
      (by simpa using hgreetings d) (by simpa [terminate_mem_farewells] using hnot)).mp hsplit
    exact .inl ⟨rfl, hbefore.symm, hafter.symm⟩
  · obtain ⟨pre, post, rfl⟩ := List.append_of_mem hin
    rw [List.append_assoc, List.cons_append] at hnodup
    obtain ⟨hpre, hlater⟩ := StableOrder.not_mem_around hnodup
    have hpost : d ∉ post := fun h => hlater (List.mem_append_left _ h)
    have hfailed : failed ≠ some d := by
      rintro rfl
      exact hlater (by simp)
    have hlist : (pre ++ d :: post).reverse = post.reverse ++ d :: pre.reverse := by simp
    have hexplicit : greetings I modules (pre ++ d :: post) ++ failure failed ++
        farewells I (pre ++ d :: post).reverse [] =
          (greetings I modules (pre ++ d :: post) ++ failure failed ++
            farewells I post.reverse (d :: pre.reverse) ++ notices I (pre ++ [d]) d) ++
              .terminate d :: farewells I pre.reverse [] := by
      rw [hlist, farewells_append, farewells]
      simp
    rw [hexplicit] at hsplit
    obtain ⟨hbefore, _, hafter⟩ := (List.append_cons_inj_of_notMem (by
        rw [List.mem_append, List.mem_append, List.mem_append, mem_failure, terminate_mem_farewells,
          List.mem_reverse]
        rintro (((h | ⟨x, hx, he | he⟩) | h) | h)
        · exact hgreetings d h
        · cases he
        · exact hfailed (Event.terminate.inj he ▸ hx)
        · exact hpost h
        · obtain ⟨_, _, he⟩ := List.mem_map.mp h
          cases he)
      (by simpa [terminate_mem_farewells] using hpre)).mp hsplit
    exact .inr ⟨pre, post, rfl, hbefore.symm, hafter.symm⟩

section Members
variable (hids : DistinctIds I modules) (hn : modules.Nodup)
variable (hmodules : ∀ x ∈ activated ++ failed.toList, x ∈ modules)
include hnodup hids hmodules

include hn in
theorem count_onDependencyInitialized {d : Mod} (hd : d ∈ modules) (m : Mod) :
    trace.count (.onDependencyInitialized m (I.getId d)) =
      if .initializeModule d true ∈ trace ∧ m ∈ modules ∧ declares I m d = true then 1 else 0 := by
  have hact : ∀ x ∈ activated, x ∈ modules := fun x hx => hmodules x (List.mem_append_left _ hx)
  have hfailure : (failure failed).count (.onDependencyInitialized m (I.getId d)) = 0 := by
    rw [List.count_eq_zero, mem_failure]
    rintro ⟨_, _, he | he⟩
    · cases he
    · cases he
  have hfarewells : (farewells I activated.reverse []).count
      (.onDependencyInitialized m (I.getId d)) = 0 := by
    rw [List.count_eq_zero]
    intro h
    rcases mem_farewells h with ⟨_, _, he⟩ | ⟨_, _, _, _, _, _, _, he⟩
    · cases he
    · cases he
  have hinit : .initializeModule d true ∈ trace ↔ d ∈ activated := by
    rw [mem_trace_initializeModule hshape]
    simp
  rw [← count_signals rfl, hshape, List.count_append, List.count_append, hfailure, hfarewells,
    count_greetings hids hn hact (List.nodup_append.mp hnodup).1 hd]
  simp only [hinit, Nat.add_zero]

theorem count_onDependencyTerminating {before after : List (Event Id Mod)} {d : Mod}
    (ht : trace = before ++ .terminate d :: after) (m : Mod) :
    before.count (.onDependencyTerminating m (I.getId d)) =
        (if d ∈ activeAfter before ∧ m ∈ activeAfter before ∧ m ≠ d ∧ declares I m d = true then 1
          else 0) ∧
      .onDependencyTerminating m (I.getId d) ∉ after := by
  have hact : ∀ x ∈ activated, x ∈ modules := fun x hx => hmodules x (List.mem_append_left _ hx)
  have hgreetings : .onDependencyTerminating m (I.getId d) ∉ greetings I modules activated := by
    intro h
    obtain ⟨_, _, he | ⟨_, _, _, he⟩⟩ := mem_greetings.mp h
    · cases he
    · cases he
  have hfailure : .onDependencyTerminating m (I.getId d) ∉ failure failed := by
    rw [mem_failure]
    rintro ⟨_, _, he | he⟩
    · cases he
    · cases he
  rw [← count_signals rfl, ← mem_signals rfl after, ← activeAfter_signals before]
  rcases split_terminate hshape hnodup ht with ⟨hf, hbefore, hafter⟩ | ⟨pre, post, hsplit, hbefore, hafter⟩
  · have hnot : d ∉ activated := by
      subst hf
      exact not_mem_of_concat_prefix hnodup (List.prefix_refl _)
    have hd : d ∈ modules := hmodules d (by simp [hf])
    rw [hbefore, hafter, activeAfter_failed hnodup hf, if_neg fun h => hnot h.1]
    refine ⟨?_, ?_⟩
    · rw [List.count_eq_zero]
      simpa using hgreetings
    · apply notice_not_mem_farewells hids (by simpa using hact) hd
      simpa using hnot
  · have hpart := (List.nodup_append.mp hnodup).1
    subst hsplit
    have hd : d ∈ modules := hact d (by simp)
    obtain ⟨hpre, hpost⟩ := StableOrder.not_mem_around hpart
    have hlater : .onDependencyTerminating m (I.getId d) ∉
        farewells I post.reverse (d :: pre.reverse) := by
      apply notice_not_mem_farewells hids _ hd (by simpa using hpost)
      intro x hx
      exact hact x (by simp [List.mem_reverse.mp hx])
    have hone : (pre ++ [d]).Nodup := hpart.sublist (by simp)
    rw [hbefore, hafter, activeAfter_farewells hnodup rfl, List.count_append, List.count_append,
      List.count_append, List.count_eq_zero.mpr hgreetings, List.count_eq_zero.mpr hfailure,
      List.count_eq_zero.mpr hlater, count_notices hone]
    refine ⟨by simp, ?_⟩
    apply notice_not_mem_farewells hids _ hd (by simpa using hpre)
    intro x hx
    exact hact x (by simp [List.mem_reverse.mp hx])

include hn in
theorem notifiesDependents_of_signals : NotifiesDependents I modules trace where
  initialized d hd m := count_onDependencyInitialized hshape hnodup hids hn hmodules hd m
  failed d hfailed hinit := by
    rw [mem_trace_initializeModule hshape] at hfailed hinit
    obtain ⟨_, he⟩ | ⟨hf, _⟩ := hfailed
    · cases he
    · obtain ⟨hin, _⟩ | ⟨_, he⟩ := hinit
      · subst hf
        exact not_mem_of_concat_prefix hnodup (List.prefix_refl _) hin
      · cases he
  terminating before d after ht m :=
    count_onDependencyTerminating hshape hnodup hids hmodules ht m
  afterwards before m after ht id hin := by
    rw [← mem_signals rfl] at hin
    rcases split_terminate hshape hnodup ht with ⟨hf, _, hafter⟩ | ⟨pre, post, hsplit, _, hafter⟩
    · rw [hafter] at hin
      rcases mem_farewells hin with ⟨_, _, he⟩ | ⟨_, _, later, _, hlist, hm, _, he⟩
      · cases he
      · cases he
        have hact : m ∈ activated := by
          rw [← List.mem_reverse, hlist]
          rw [List.append_nil] at hm
          simp [hm]
        subst hf
        exact not_mem_of_concat_prefix hnodup (List.prefix_refl _) hact
    · rw [hafter] at hin
      rcases mem_farewells hin with ⟨_, _, he⟩ | ⟨_, _, later, _, hlist, hm, _, he⟩
      · cases he
      · cases he
        have hpre : m ∈ pre := by
          rw [← List.mem_reverse, hlist]
          rw [List.append_nil] at hm
          simp [hm]
        have hpart := (List.nodup_append.mp hnodup).1
        rw [hsplit] at hpart
        exact (StableOrder.not_mem_around hpart).1 hpre
  named m id hin := by
    rcases hin with hin | hin
    · rw [← mem_signals rfl, hshape, List.mem_append, List.mem_append, mem_greetings,
        mem_failure] at hin
      rcases hin with (⟨d, hd, he | ⟨_, _, _, he⟩⟩ | ⟨_, _, he | he⟩) | h
      · cases he
      · cases he
        exact ⟨d, hmodules d (List.mem_append_left _ hd), rfl⟩
      · cases he
      · cases he
      · rcases mem_farewells h with ⟨_, _, he⟩ | ⟨_, _, _, _, _, _, _, he⟩
        · cases he
        · cases he
    · obtain ⟨pre, d, post, hsplit, _, _, hid⟩ := mem_trace_onDependencyTerminating hshape hin
      exact ⟨d, hmodules d (List.mem_append_left _ (mem_of_eq_append hsplit)), hid⟩

end Members

include hnodup in
/-- In an order with needs first the teardown comes to a module after whoever needs it. -/
theorem outlivesDependents_of_needsFirst
    (hmodules : ∀ x ∈ activated ++ failed.toList, x ∈ modules)
    (hneeds : StableOrder.NeedsFirst (DeclaresOrdering I) modules (activated ++ failed.toList)) :
    OutlivesDependents I trace := by
  intro d m hdm
  constructor
  · intro hin
    obtain ⟨pre, x, post, hsplit, hm, _, hid⟩ := mem_trace_onDependencyTerminating hshape hin
    have hx := hmodules x (List.mem_append_left _ (mem_of_eq_append hsplit))
    have hmx : DeclaresOrdering I m x := by
      obtain ⟨dependency, hdependency, hkind, hp⟩ := hdm
      exact ⟨dependency, hdependency, hkind, by rw [hp, hid]⟩
    have htaken : activated ++ failed.toList = pre ++ x :: (post ++ failed.toList) := by
      rw [hsplit, List.append_assoc, List.cons_append]
    have hlater := hneeds.mem_after hnodup htaken (by rw [htaken]; simp [hm]) hx hmx
    rw [htaken] at hnodup
    exact (List.nodup_append.mp hnodup).2.2 m hm m (List.mem_cons_of_mem _ hlater) rfl
  · intro before after ht ok hinit
    have hm : m ∈ activated ++ failed.toList := by
      rcases (mem_trace_initializeModule hshape).mp hinit with ⟨hm, _⟩ | ⟨hf, _⟩
      · exact List.mem_append_left _ hm
      · simp [hf]
    rw [← mem_signals rfl]
    rcases split_terminate hshape hnodup ht with ⟨hf, _, _⟩ | ⟨pre, post, hsplit, hbefore, _⟩
    · -- Nothing stands after the module that failed.
      have hd := hmodules d (by simp [hf])
      have htaken : activated ++ failed.toList = activated ++ d :: [] := by simp [hf]
      exact absurd (hneeds.mem_after hnodup htaken hm hd hdm) List.not_mem_nil
    · have hd := hmodules d (List.mem_append_left _ (mem_of_eq_append hsplit))
      have htaken : activated ++ failed.toList = pre ++ d :: (post ++ failed.toList) := by
        rw [hsplit, List.append_assoc, List.cons_append]
      rw [hbefore]
      rcases List.mem_append.mp (hneeds.mem_after hnodup htaken hm hd hdm) with hin | hin
      · apply List.mem_append_left
        apply List.mem_append_right
        exact terminate_mem_farewells.mpr (List.mem_reverse.mpr hin)
      · apply List.mem_append_left
        apply List.mem_append_left
        apply List.mem_append_right
        exact mem_failure.mpr ⟨m, by simpa using hin, .inr rfl⟩

end Run

/-- Every boot notifies as it should, whatever came before it, and as long as no
pending count wraps, no module outlives one that it declares Required or Optional. -/
theorem trace_notifies (history : List (Boot Mod)) (boot : Boot Mod)
    (hids : DistinctIds I boot.context.modules) :
    NotifiesDependents I boot.context.modules.eraseDups (boot.trace I (afterBoots I history)) ∧
      (CountersFit I boot.context.modules.eraseDups →
        OutlivesDependents I (boot.trace I (afterBoots I history))) := by
  obtain ⟨activated, failed, hpre, hshape⟩ := signals_trace (I := I) history boot
  obtain ⟨horder, hlisted⟩ := initializationOrder_spec I boot.context
  have hnodup := horder.sublist hpre.sublist
  have hmodules : ∀ x ∈ activated ++ failed.toList, x ∈ boot.context.modules.eraseDups :=
    fun x hx => List.mem_eraseDups.mpr (hlisted x (hpre.subset hx))
  have hids' : DistinctIds I boot.context.modules.eraseDups := fun a ha b hb =>
    hids a (List.mem_eraseDups.mp ha) b (List.mem_eraseDups.mp hb)
  refine ⟨notifiesDependents_of_signals hshape hnodup hids' (nodup_eraseDups _) hmodules, ?_⟩
  intro hf
  apply outlivesDependents_of_needsFirst hshape hnodup hmodules
  obtain ⟨rest, hrest⟩ := hpre
  by_cases hr : (resolve I boot.context.modules.eraseDups).resolved = true
  · obtain ⟨hg, _⟩ := resolve_greedy (distinctIds_eraseDups hids) hf hr
    simp only [initializationOrder, hr, if_true] at hrest
    rw [← hrest] at hg
    exact hg.needsFirst.of_append
  · simp only [initializationOrder, hr] at hrest
    obtain ⟨hnone, _⟩ := List.append_eq_nil_iff.mp hrest
    rw [hnone]
    intro before x after he
    simp at he

/-- Two modules, the first only to be notified of the second. -/
def notifyPair : Interface Bool Bool where
  getName id := if id then "A" else "B"
  getVersion _ := { major := 1 }
  getContractVersion _ := moduleContractVersion
  getId m := m
  getDependencies m := if m then [{ pModule := some false, kind := .notify }] else []

def notifyBoot (succeeds : Bool → Bool) : Boot Bool where
  context := { modules := [true, false], schedule := [], noTick := [true, false] }
  succeeds
  calls := []

theorem trace_notifies_pair :
    NotifiesDependents notifyPair [true, false]
        ((notifyBoot fun _ => true).trace notifyPair (afterBoots notifyPair [])) ∧
      (CountersFit notifyPair [true, false] → OutlivesDependents notifyPair
        ((notifyBoot fun _ => true).trace notifyPair (afterBoots notifyPair []))) :=
  trace_notifies [] (notifyBoot fun _ => true) (fun _ _ _ _ h => h)

/-- A module whose Initialize fails is terminated without a word to one that is
active and declares it. -/
theorem failed_module_not_announced : ∃ before after,
    (notifyBoot id).trace notifyPair (afterBoots notifyPair []) = before ++ .terminate false :: after ∧
      true ∈ activeAfter before ∧ declares notifyPair true false = true ∧
      .onDependencyTerminating true (notifyPair.getId false) ∉ before :=
  ⟨((notifyBoot id).trace notifyPair (afterBoots notifyPair [])).takeWhile (· ≠ .terminate false),
    (((notifyBoot id).trace notifyPair (afterBoots notifyPair [])).dropWhile
      (· ≠ .terminate false)).tail, by decide +kernel, by decide +kernel, by decide, by decide +kernel⟩

end TgeCore.Module
