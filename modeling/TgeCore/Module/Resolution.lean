import TgeCore.Module.Placement

namespace TgeCore.Module
open Library

variable {Id Mod : Type} [DecidableEq Id] {I : Interface Id Mod}

/-- One declaration passes its check against the listed modules. -/
def Satisfied (I : Interface Id Mod) (modules : List Mod) (d : SDependency Id) : Prop :=
  ∃ id, d.pModule = some id ∧ (d.kind = .required → ∃ p ∈ modules, I.getId p = id) ∧
    (isConstrained d.minVersion = true → ∀ p ∈ modules, I.getId p = id →
      satisfies (I.getVersion (I.getId p)) d.minVersion = true)

/-- Every module has the runtime's contract version and only satisfied declarations. -/
def ChecksPass (I : Interface Id Mod) (modules : List Mod) : Prop :=
  ∀ m ∈ modules, I.getContractVersion (I.getId m) = moduleContractVersion ∧
    ∀ d ∈ I.getDependencies m, Satisfied I modules d

/-- What a context must satisfy to boot: the checks pass and the Required and
Optional declarations have no cycle. -/
def Bootable (I : Interface Id Mod) (modules : List Mod) : Prop :=
  ChecksPass I modules ∧ StableOrder.Acyclic (DeclaresOrdering I) modules

theorem dependencyError_eq_none (m : Mod) (modules : List Mod) (d : SDependency Id) :
    dependencyError I m modules d = none ↔ Satisfied I modules d := by
  unfold dependencyError Satisfied
  cases hp : d.pModule with
  | none => simp
  | some id =>
    cases hf : findLoaded I modules (some id) with
    | none =>
      have habsent := findLoaded_isNone.mp (Option.isNone_iff_eq_none.mpr hf)
      have hno : ¬ ∃ p ∈ modules, I.getId p = id := fun ⟨p, hp, he⟩ => habsent p hp he
      by_cases hk : d.kind = .required
      · simp [hf, hk, hno]
      · simp only [hf, Option.isNone_none, ↓reduceIte, hk, true_iff]
        exact ⟨id, rfl, False.elim, fun _ p hp he => absurd he (habsent p hp)⟩
    | some p =>
      obtain ⟨hpm, hpi⟩ := findLoaded_mem hf
      obtain rfl : I.getId p = id := Option.some.inj hpi
      have hall : (∀ x ∈ modules, I.getId x = I.getId p →
          satisfies (I.getVersion (I.getId x)) d.minVersion = true) ↔
          satisfies (I.getVersion (I.getId p)) d.minVersion = true :=
        ⟨fun h => h p hpm rfl, fun h x _ he => he ▸ h⟩
      have hpresent : ∃ x ∈ modules, I.getId x = I.getId p := ⟨p, hpm, rfl⟩
      simp only [hf, Option.isNone_some, Bool.false_eq_true, ↓reduceIte, Option.some.injEq,
        exists_eq_left', hpresent, implies_true, true_and, hall]
      cases isConstrained d.minVersion <;>
        cases satisfies (I.getVersion (I.getId p)) d.minVersion <;> simp

/-- A fold that lowers a flag at every offender answers whether there was none. -/
theorem foldl_flag (f : Bool × List β → α → Bool × List β) (ok : α → Prop)
    (hf : ∀ x state, (f state x).1 = true ↔ state.1 = true ∧ ok x) (xs : List α)
    (state : Bool × List β) :
    (xs.foldl f state).1 = true ↔ state.1 = true ∧ ∀ x ∈ xs, ok x := by
  induction xs generalizing state with
  | nil => simp
  | cons x xs ih => simp [ih, hf, and_assoc]

theorem validateDependencies_fst (m : Mod) (modules : List Mod) :
    (validateDependencies I m modules).1 = true ↔
      ∀ d ∈ I.getDependencies m, Satisfied I modules d := by
  unfold validateDependencies
  refine (foldl_flag _ (Satisfied I modules) ?_ _ _).trans (by simp)
  intro d state
  rw [← dependencyError_eq_none m]
  cases dependencyError I m modules d <;> simp

omit [DecidableEq Id] in
theorem validateContract_fst (m : Mod) : (validateContract I m).1 = true ↔
    I.getContractVersion (I.getId m) = moduleContractVersion := by
  simp only [validateContract]
  split <;> simp_all

theorem validateModules_fst (modules : List Mod) :
    (validateModules I modules).1 = true ↔ ChecksPass I modules := by
  unfold validateModules ChecksPass
  refine (foldl_flag _ (fun m => I.getContractVersion (I.getId m) = moduleContractVersion ∧
    ∀ d ∈ I.getDependencies m, Satisfied I modules d) ?_ _ _).trans (by simp)
  intro m state
  simp [validateContract_fst, validateDependencies_fst, and_assoc]

theorem find?_congr {p q : α → Bool} {xs : List α} (h : ∀ x ∈ xs, p x = q x) :
    xs.find? p = xs.find? q := by
  induction xs with
  | nil => rfl
  | cons x xs ih =>
    rw [List.find?_cons, List.find?_cons, h x (by simp), ih (fun y hy => h y (by simp [hy]))]

section Loop
variable [DecidableEq Mod] {modules order : List Mod}
variable (hd : DistinctIds I modules) (hmod : modules.Nodup) (hf : CountersFit I modules)
include hd hmod hf

/-- What one round does: give up when no count is zero, else place the first
module whose count is. -/
theorem place_succ (ho : order.Nodup) (hs : ∀ x ∈ order, x ∈ modules) (rounds : Nat) :
    (modules.find? (fun m => decide (counter I modules order m = 0)) = none ∧
      place I modules (rounds + 1) (counters I modules order) order =
        ⟨false, order, [cycleError I (unplaced modules (counters I modules order))]⟩) ∨
    ∃ m, modules.find? (fun m => decide (counter I modules order m = 0)) = some m ∧
      place I modules (rounds + 1) (counters I modules order) order =
        place I modules rounds (counters I modules (order ++ [m])) (order ++ [m]) := by
  rw [← nextReady_counters]
  cases hnext : nextReady (counters I modules order) with
  | none => exact .inl ⟨rfl, by simp [place, hnext]⟩
  | some next =>
    have hzero : counter I modules order modules[next] = 0 := by
      have h := nextReady_counters (I := I) modules order
      rw [hnext] at h
      simpa using List.find?_some h.symm
    have hnot := ((counter_eq_zero_iff hd hf ho hs (List.getElem_mem _)).mp hzero).1.1
    refine .inr ⟨modules[next], rfl, ?_⟩
    simp only [place, hnext]
    rw [release_counters hd hf hmod ho hs next hnot]
    rfl

/-- While a module declares something twice, the loop cannot finish: its count
never reaches zero and it is never placed. -/
theorem place_of_stuck {m : Mod} (hm : m ∈ modules) (honce : ¬ DeclaredOnce I modules m)
    (rounds : Nat) (ho : order.Nodup) (hs : ∀ x ∈ order, x ∈ modules) (hmo : m ∉ order)
    (hr : rounds + order.length = modules.length) :
    (place I modules rounds (counters I modules order) order).resolved = false ∧
      m ∉ (place I modules rounds (counters I modules order) order).order := by
  induction rounds generalizing order with
  | zero =>
    have hlt : (m :: order).length ≤ modules.length := by
      apply List.Nodup.length_le_of_subset (List.nodup_cons.mpr ⟨hmo, ho⟩)
      intro x hx
      rcases List.mem_cons.mp hx with rfl | hx
      · exact hm
      · exact hs x hx
    simp only [List.length_cons] at hlt
    omega
  | succ rounds ih =>
    rcases place_succ hd hmod hf ho hs rounds with ⟨_, he⟩ | ⟨x, hx, he⟩
    · rw [he]
      exact ⟨rfl, hmo⟩
    · have hxm := List.mem_of_find?_eq_some hx
      have hxz : counter I modules order x = 0 := by simpa using List.find?_some hx
      obtain ⟨⟨hxo, _⟩, hxonce⟩ := (counter_eq_zero_iff hd hf ho hs hxm).mp hxz
      have hne : m ≠ x := by
        rintro rfl
        exact honce hxonce
      have hkept := StableOrder.placed_snoc ho hs hxm hxo
      rw [he]
      apply ih
      · exact hkept.1
      · exact hkept.2
      · simp [hmo, hne]
      · simp only [List.length_append, List.length_singleton]
        omega

/-- With every dependency declared once, the loop is the greedy placement: it
stops only with everything placed or with nothing ready. -/
theorem place_greedy (honce : ∀ m ∈ modules, DeclaredOnce I modules m) (rounds : Nat)
    (hg : StableOrder.Greedy (DeclaresOrdering I) modules order)
    (hr : rounds + order.length = modules.length) :
    let r := place I modules rounds (counters I modules order) order
    StableOrder.Greedy (DeclaresOrdering I) modules r.order ∧
      ((r.resolved = true ∧ r.order.length = modules.length) ∨
        (r.resolved = false ∧ r.order.length < modules.length ∧
          StableOrder.next? (DeclaresOrdering I) modules r.order = none)) := by
  induction rounds generalizing order with
  | zero => exact ⟨hg, .inl ⟨rfl, by simpa [place] using hr⟩⟩
  | succ rounds ih =>
    have hfind : modules.find? (fun m => decide (counter I modules order m = 0)) =
        StableOrder.next? (DeclaresOrdering I) modules order := by
      apply find?_congr
      intro m hm
      rw [decide_eq_decide]
      rw [counter_eq_zero_iff hd hf hg.nodup hg.subset hm]
      exact and_iff_left (honce m hm)
    rcases place_succ hd hmod hf hg.nodup hg.subset rounds with ⟨hx, he⟩ | ⟨x, hx, he⟩
    · rw [hfind] at hx
      have hleft : order.length < modules.length := by omega
      rw [he]
      exact ⟨hg, .inr ⟨rfl, hleft, hx⟩⟩
    · rw [hfind] at hx
      rw [he]
      apply ih (hg.snoc hx)
      simp only [List.length_append, List.length_singleton]
      omega

end Loop

omit [DecidableEq Id] in
theorem distinctIds_of_nodup {modules : List Mod} (h : (modules.map I.getId).Nodup) :
    DistinctIds I modules :=
  fun _ ha _ hb he => List.inj_on_of_nodup_map h ha hb he

theorem resolve_checks {modules : List Mod} (h : (resolve I modules).resolved = true) :
    ChecksPass I modules := by
  rw [← validateModules_fst]
  by_contra hn
  simp [resolve, hn] at h

theorem resolve_of_checks {modules : List Mod} (h : ChecksPass I modules) :
    (resolve I modules).resolved =
        (place I modules modules.length (initialPending I modules) []).resolved ∧
      (resolve I modules).order =
        (place I modules modules.length (initialPending I modules) []).order := by
  unfold resolve
  rw [if_pos ((validateModules_fst modules).mpr h)]
  exact ⟨rfl, rfl⟩

/-- Whatever the counts do, only listed modules are placed, and none twice: a
placed module's count stays at the mark. -/
theorem place_order {modules : List Mod} (hmod : modules.Nodup) (rounds : Nat)
    (pending : Fin modules.length → UInt32) (order : List Mod) (ho : order.Nodup)
    (hs : ∀ m ∈ order, m ∈ modules)
    (hmark : ∀ index, modules.get index ∈ order → pending index = emitted) :
    (place I modules rounds pending order).order.Nodup ∧
      ∀ m ∈ (place I modules rounds pending order).order, m ∈ modules := by
  induction rounds generalizing pending order with
  | zero => exact ⟨ho, hs⟩
  | succ rounds ih =>
    simp only [place]
    cases hnext : nextReady pending with
    | none => exact ⟨ho, hs⟩
    | some next =>
      have hzero : pending next = 0 := by
        rw [nextReady_eq] at hnext
        simpa using List.find?_some hnext
      have hnew : modules[next] ∉ order := by
        intro hin
        have := hmark next hin
        rw [hzero] at this
        cases this
      have hkept := StableOrder.placed_snoc ho hs (List.getElem_mem next.isLt) hnew
      apply ih
      · exact hkept.1
      · exact hkept.2
      · intro index hin
        have hm : Function.update pending next emitted index = emitted := by
          by_cases he : index = next
          · rw [he, Function.update_self]
          · rw [Function.update_of_ne he]
            rcases List.mem_append.mp hin with hin | hin
            · exact hmark index hin
            · have := (List.Nodup.getElem_inj_iff hmod).mp (List.mem_singleton.mp hin)
              exact absurd (Fin.ext this) he
        simp [release, hm]

theorem resolve_order {modules : List Mod} (hmod : modules.Nodup) :
    (resolve I modules).order.Nodup ∧ ∀ m ∈ (resolve I modules).order, m ∈ modules := by
  by_cases hv : (validateModules I modules).1 = true
  · rw [(resolve_of_checks ((validateModules_fst modules).mp hv)).2]
    exact place_order hmod _ _ [] (by simp) (by simp) (by simp)
  · simp [resolve, hv]

section Verdict
variable [DecidableEq Mod] {modules : List Mod}

/-- A resolved context declares nothing twice. -/
theorem resolve_once (hids : (modules.map I.getId).Nodup) (hf : CountersFit I modules)
    (hr : (resolve I modules).resolved = true) : ∀ m ∈ modules, DeclaredOnce I modules m := by
  intro m hm
  by_contra hn
  rw [(resolve_of_checks (resolve_checks hr)).1, initialPending_eq,
    (place_of_stuck (distinctIds_of_nodup hids) hids.of_map hf hm hn _ (by simp) (by simp)
      (by simp) (by simp)).1] at hr
  cases hr

/-- The order of a resolved context is the greedy placement of all its modules. -/
theorem resolve_greedy (hids : (modules.map I.getId).Nodup) (hf : CountersFit I modules)
    (hr : (resolve I modules).resolved = true) :
    StableOrder.Greedy (DeclaresOrdering I) modules (resolve I modules).order ∧
      (resolve I modules).order.Perm modules := by
  have honce := resolve_once hids hf hr
  obtain ⟨hres, hord⟩ := resolve_of_checks (resolve_checks hr)
  have hn : modules.Nodup := hids.of_map
  rw [hres, initialPending_eq] at hr
  rw [hord, initialPending_eq]
  obtain ⟨hg, ⟨_, hlen⟩ | ⟨hfalse, _⟩⟩ := place_greedy (distinctIds_of_nodup hids) hn hf honce
    modules.length .nil (by simp)
  · refine ⟨hg, ?_⟩
    exact (List.subperm_of_subset hg.nodup hg.subset).perm_of_length_le (Nat.le_of_eq hlen.symm)
  · rw [hr] at hfalse
    cases hfalse

theorem resolve_of_acyclic (hids : (modules.map I.getId).Nodup) (hf : CountersFit I modules)
    (honce : ∀ m ∈ modules, DeclaredOnce I modules m) (hb : Bootable I modules) :
    (resolve I modules).resolved = true := by
  rw [(resolve_of_checks hb.1).1, initialPending_eq]
  obtain ⟨hg, ⟨hres, _⟩ | ⟨_, hlen, hnone⟩⟩ := place_greedy (distinctIds_of_nodup hids)
    hids.of_map hf honce modules.length .nil (by simp)
  · exact hres
  · -- Something is left unplaced, so an acyclic context has a ready module.
    obtain ⟨x, hx, hxo⟩ : ∃ x ∈ modules, x ∉ (place I modules modules.length
        (counters I modules []) []).order := by
      by_contra hall
      push Not at hall
      have := List.Nodup.length_le_of_subset hids.of_map hall
      omega
    obtain ⟨y, hy, hready⟩ := StableOrder.exists_ready hb.2 hx hxo
    have := List.find?_eq_none.mp hnone y hy
    simp [hready] at this

end Verdict

end TgeCore.Module
