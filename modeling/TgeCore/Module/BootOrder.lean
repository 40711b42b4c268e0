import TgeCore.Module.Resolution

namespace TgeCore.Module
open Library

variable {Id Mod : Type} [DecidableEq Id] {I : Interface Id Mod} {modules : List Mod}

/-- The contexts the pending counts judge rightly: a check refuses them, or no
count wraps and there is a cycle or nothing is declared twice. -/
def CountedRightly (I : Interface Id Mod) (modules : List Mod) : Prop :=
  ¬ ChecksPass I modules ∨ (CountersFit I modules ∧
    (¬ StableOrder.Acyclic (DeclaresOrdering I) modules ∨
      ∀ m ∈ modules, DeclaredOnce I modules m))

/-- Resolve accepts exactly the bootable contexts where the counts are right,
and, as long as no count wraps, nowhere else. -/
theorem resolve_iff_bootable (hids : (modules.map I.getId).Nodup) :
    (CountedRightly I modules →
      ((resolve I modules).resolved = true ↔ Bootable I modules)) ∧
    (CountersFit I modules → ((resolve I modules).resolved = true ↔ Bootable I modules) →
      CountedRightly I modules) := by
  classical
  constructor
  · intro hc
    constructor
    · intro hr
      have hchecks := resolve_checks hr
      rcases hc with hno | ⟨hf, _⟩
      · exact absurd hchecks hno
      · obtain ⟨hg, hp⟩ := resolve_greedy hids hf hr
        exact ⟨hchecks, hg.acyclic fun y hy => hp.mem_iff.mpr hy⟩
    · intro hb
      rcases hc with hno | ⟨hf, hcyc | honce⟩
      · exact absurd hb.1 hno
      · exact absurd hb.2 hcyc
      · exact resolve_of_acyclic hids hf honce hb
  · intro hf hiff
    by_cases hb : Bootable I modules
    · exact .inr ⟨hf, .inr (resolve_once hids hf (hiff.mpr hb))⟩
    · by_cases hchecks : ChecksPass I modules
      · exact .inr ⟨hf, .inl fun ha => hb ⟨hchecks, ha⟩⟩
      · exact .inl hchecks

/-- Two modules, the first requiring the second `n` times over. -/
def requireTimes (n : Nat) : Interface Bool Bool where
  getName id := if id then "A" else "B"
  getVersion _ := { major := 1 }
  getContractVersion _ := moduleContractVersion
  getId m := m
  getDependencies m := if m then List.replicate n { pModule := some false } else []

theorem requireTimes_mem {n : Nat} {m : Bool} {d : SDependency Bool}
    (h : d ∈ (requireTimes n).getDependencies m) : m = true ∧ d = { pModule := some false } := by
  cases m with
  | true => exact ⟨rfl, List.eq_of_mem_replicate h⟩
  | false => exact absurd h List.not_mem_nil

/-- However often the requirement is repeated, the second module can go first. -/
theorem requireTimes_bootable (n : Nat) : Bootable (requireTimes n) [true, false] := by
  constructor
  · intro m _
    refine ⟨rfl, ?_⟩
    intro d hd
    obtain ⟨_, rfl⟩ := requireTimes_mem hd
    exact ⟨false, rfl, fun _ => ⟨false, by simp, rfl⟩, fun h => by simp [isConstrained] at h⟩
  · have hfirst : StableOrder.NeedsFirst (DeclaresOrdering (requireTimes n)) [true, false]
        [false, true] := by
      intro pre x post he y _ hneeds
      obtain ⟨d, hd, _, hy⟩ := hneeds
      obtain ⟨rfl, rfl⟩ := requireTimes_mem hd
      obtain rfl : y = false := (Option.some.inj hy).symm
      cases pre with
      | nil => simp at he
      | cons z pre =>
        simp only [List.cons_append, List.cons.injEq] at he
        simp [← he.1]
    exact hfirst.acyclic (by simp)

/-- An acyclic context with satisfied dependencies is refused because one
requirement is declared twice. -/
theorem resolve_refuses_repeated :
    (([true, false] : List Bool).map (requireTimes 2).getId).Nodup ∧
      ¬ ((resolve (requireTimes 2) [true, false]).resolved = true ↔
        Bootable (requireTimes 2) [true, false]) := by
  refine ⟨by decide, fun h => ?_⟩
  have hr : (resolve (requireTimes 2) [true, false]).resolved = false := by decide
  rw [h.mpr (requireTimes_bootable 2)] at hr
  cases hr

theorem resolve_iff_bootable_once :
    (resolve (requireTimes 1) [true, false]).resolved = true ↔
      Bootable (requireTimes 1) [true, false] :=
  (resolve_iff_bootable (by decide)).1 (.inr ⟨by decide, .inr (by decide)⟩)

section Notify
variable (deps : Mod → List (SDependency Id))

theorem targets_eq_filter (m : Mod) : targets I modules m =
    ((I.getDependencies m).filter (·.kind ≠ .notify)).filterMap
      (fun d => findLoaded I modules d.pModule) := by
  rw [targets, List.filterMap_filter]
  congr 1
  funext d
  cases d.kind <;> simp [isOrderingDependency]

omit [DecidableEq Id] in
theorem declaresOrdering_iff_filter (a b : Mod) : DeclaresOrdering I a b ↔
    ∃ d ∈ (I.getDependencies a).filter (·.kind ≠ .notify), d.pModule = some (I.getId b) := by
  unfold DeclaresOrdering
  constructor
  · rintro ⟨d, hd, hk, hp⟩
    refine ⟨d, List.mem_filter.mpr ⟨hd, ?_⟩, hp⟩
    rcases hk with hk | hk <;> simp [hk]
  · rintro ⟨d, hd, hp⟩
    obtain ⟨hd, hk⟩ := List.mem_filter.mp hd
    refine ⟨d, hd, ?_, hp⟩
    cases he : d.kind <;> simp [he] at hk ⊢

/-- The loop only sees a module through what it depends on. -/
theorem place_congr (J : Interface Id Mod) (hname : ∀ m, J.moduleName m = I.moduleName m)
    (hdep : ∀ a ∈ modules, ∀ b ∈ modules, dependsOn J a b = dependsOn I a b) (rounds : Nat)
    (pending : Fin modules.length → UInt32) (order : List Mod) :
    place J modules rounds pending order = place I modules rounds pending order := by
  have hrel : ∀ pending next, release J modules pending next = release I modules pending next := by
    intro pending next
    funext index
    simp only [release, hdep modules[index] (List.getElem_mem _) modules[next] (List.getElem_mem _)]
  have hcyc : cycleError J = cycleError I := by
    funext stuck
    simp [cycleError, hname]
  induction rounds generalizing pending order with
  | zero => rfl
  | succ rounds ih => simp only [place, hrel, hcyc, ih]

/-- Two interfaces that differ in satisfied Notify declarations only resolve
the same context to the same order. -/
theorem resolve_notify
    (hsame : ∀ m ∈ modules, (deps m).filter (·.kind ≠ .notify) =
      (I.getDependencies m).filter (·.kind ≠ .notify))
    (hnotify : ∀ m ∈ modules, ∀ d ∈ deps m, d.kind = .notify → Satisfied I modules d)
    (hr : (resolve I modules).resolved = true) :
    (resolve { I with getDependencies := deps } modules).resolved = true ∧
      (resolve { I with getDependencies := deps } modules).order = (resolve I modules).order := by
  have hchecks : ChecksPass { I with getDependencies := deps } modules := by
    intro m hm
    obtain ⟨hcontract, hdeps⟩ := resolve_checks hr m hm
    refine ⟨hcontract, ?_⟩
    intro d hd
    by_cases hk : d.kind = .notify
    · exact hnotify m hm d hd hk
    · have hd' : d ∈ (deps m).filter (·.kind ≠ .notify) := List.mem_filter.mpr ⟨hd, by simp [hk]⟩
      rw [hsame m hm] at hd'
      exact hdeps d (List.mem_filter.mp hd').1
  have hpending : initialPending { I with getDependencies := deps } modules =
      initialPending I modules := by
    funext index
    simp only [initialPending, waiting_eq]
    rw [targets_eq_filter, targets_eq_filter]
    exact congrArg (fun ds => UInt32.ofNat (ds.filterMap (fun d => findLoaded I modules d.pModule)).length)
      (hsame modules[index] (List.getElem_mem _))
  have hplace := place_congr (I := I) { I with getDependencies := deps } (fun _ => rfl) (by
    intro a ha b hb
    rw [Bool.eq_iff_iff, dependsOn_iff, dependsOn_iff, declaresOrdering_iff_filter,
      declaresOrdering_iff_filter, ← hsame a ha])
    modules.length (initialPending I modules) []
  obtain ⟨hres, hord⟩ := resolve_of_checks (resolve_checks hr)
  obtain ⟨hres', hord'⟩ := resolve_of_checks hchecks
  rw [hpending, hplace] at hres' hord'
  exact ⟨by rw [hres', ← hres]; exact hr, by rw [hord', hord]⟩

end Notify

section Order
variable [DecidableEq Mod]

/-- What the resolved order promises: all modules, each after the modules it
declares Required or Optional, always the first ready one next, and no matter
which satisfied Notify declarations there are. -/
def OrdersStably (I : Interface Id Mod) (modules : List Mod) : Prop :=
  (resolve I modules).resolved = true →
    (resolve I modules).order.Perm modules ∧
    StableOrder.NeedsFirst (DeclaresOrdering I) modules (resolve I modules).order ∧
    StableOrder.Greedy (DeclaresOrdering I) modules (resolve I modules).order ∧
    ∀ deps : Mod → List (SDependency Id),
      (∀ m ∈ modules, (deps m).filter (·.kind ≠ .notify) =
        (I.getDependencies m).filter (·.kind ≠ .notify)) →
      (∀ m ∈ modules, ∀ d ∈ deps m, d.kind = .notify → Satisfied I modules d) →
      (resolve { I with getDependencies := deps } modules).resolved = true ∧
      (resolve { I with getDependencies := deps } modules).order = (resolve I modules).order

/-- A resolved order keeps its promise, unless a pending count of a context that passes the checks wraps. -/
theorem resolve_ordersStably (hids : (modules.map I.getId).Nodup)
    (hf : ¬ ChecksPass I modules ∨ CountersFit I modules) : OrdersStably I modules := by
  intro hr
  have hfit := hf.resolve_left fun hno => hno (resolve_checks hr)
  obtain ⟨hg, hp⟩ := resolve_greedy hids hfit hr
  exact ⟨hp, hg.needsFirst, hg, fun deps hsame hnotify => resolve_notify deps hsame hnotify hr⟩

end Order

theorem targets_requireTimes (n : Nat) :
    targets (requireTimes n) [true, false] true = List.replicate n false ∧
      targets (requireTimes n) [true, false] false = [] := by
  constructor
  · simp [targets, requireTimes, isOrderingDependency, findLoaded]
  · simp [targets, requireTimes]

/-- Both counts at zero: the first module goes first, whatever it depends on. -/
theorem place_pair (J : Interface Bool Bool) (hno : dependsOn J false true = false) :
    place J [true, false] 2 (fun _ => 0) [] = ⟨true, [true, false], []⟩ := by
  simp [place, nextReady_eq, release, List.finRange_succ, emitted, hno]

/-- 2^32 declarations count as none: the dependent is placed before what it requires. -/
theorem resolve_requireTimes_wrapped :
    (resolve (requireTimes (2 ^ 32)) [true, false]).resolved = true ∧
      (resolve (requireTimes (2 ^ 32)) [true, false]).order = [true, false] := by
  obtain ⟨ha, hb⟩ := targets_requireTimes (2 ^ 32)
  obtain ⟨hres, hord⟩ := resolve_of_checks (requireTimes_bootable (2 ^ 32)).1
  have hpending : initialPending (requireTimes (2 ^ 32)) [true, false] = fun _ => 0 := by
    funext index
    have : ∀ m ∈ [true, false], waiting (requireTimes (2 ^ 32)) [true, false] m = 0 := by
      intro m hm
      cases m
      · rw [waiting_eq, hb]
        rfl
      · rw [waiting_eq, ha, List.length_replicate]
        rfl
    exact this _ (List.getElem_mem _)
  rw [hres, hord, hpending]
  have hplace := place_pair (requireTimes (2 ^ 32)) rfl
  exact ⟨congrArg Resolution.resolved hplace, congrArg Resolution.order hplace⟩

theorem resolve_wraps_order :
    (([true, false] : List Bool).map (requireTimes (2 ^ 32)).getId).Nodup ∧
      ¬ OrdersStably (requireTimes (2 ^ 32)) [true, false] := by
  refine ⟨by decide, fun h => ?_⟩
  obtain ⟨hres, hord⟩ := resolve_requireTimes_wrapped
  obtain ⟨_, hneeds, _⟩ := h hres
  rw [hord] at hneeds
  have hdep : DeclaresOrdering (requireTimes (2 ^ 32)) true false :=
    ⟨{ pModule := some false }, List.mem_replicate.mpr ⟨by decide, rfl⟩, .inl rfl, rfl⟩
  have := hneeds [] true [false] rfl false (by simp) hdep
  simp at this

theorem resolve_ordersStably_once : OrdersStably (requireTimes 1) [true, false] :=
  resolve_ordersStably (by decide) (.inr (by decide))

end TgeCore.Module
