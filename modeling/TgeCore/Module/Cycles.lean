import Mathlib.Algebra.GroupWithZero.Nat
import TgeCore.Module.Resolution

namespace TgeCore.Module
open Library

variable {Id Mod : Type} [DecidableEq Id] {I : Interface Id Mod} {modules : List Mod}

open Classical in
/-- What a failed placement reports: the modules that lead to a cycle of Required and
Optional declarations, in the order of the context. All the others have been placed. -/
def NamesCycles (I : Interface Id Mod) (modules : List Mod) : Prop :=
  (resolve I modules).resolved = false →
    (resolve I modules).log = [cycleError I (modules.filter fun m =>
        decide (StableOrder.LeadsToCycle (DeclaresOrdering I) modules m))] ∧
      ∀ m ∈ modules, m ∈ (resolve I modules).order ↔
        ¬ StableOrder.LeadsToCycle (DeclaresOrdering I) modules m

/-- No module declares so many present modules that its count starts at the mark
of a placed one, or beyond. -/
def CountsBelowMark (I : Interface Id Mod) (modules : List Mod) : Prop :=
  ∀ m ∈ modules, (targets I modules m).length < emitted.toNat

instance (I : Interface Id Mod) (modules : List Mod) : Decidable (CountsBelowMark I modules) :=
  inferInstanceAs (Decidable (∀ m ∈ modules, _))

section Text

/-- Every module named makes the text longer. -/
theorem length_foldl_names (names : List String) (start : String) :
    (names.foldl (· ++ ·) start).length = start.length + (names.map String.length).sum := by
  induction names generalizing start with
  | nil => simp
  | cons name names ih =>
    rw [List.foldl_cons, ih, String.length_append, List.map_cons, List.sum_cons]
    omega

/-- A list with positive summands is longer than a part of it by no more than its sum is. -/
theorem sum_map_sublist {xs ys : List α} (h : xs.Sublist ys) (f : α → Nat) (hpos : ∀ x, 0 < f x) :
    (xs.map f).sum + ys.length ≤ (ys.map f).sum + xs.length := by
  induction h with
  | slnil => simp
  | cons y _ ih =>
    have := hpos y
    simp only [List.map_cons, List.sum_cons, List.length_cons]
    omega
  | cons_cons y _ ih =>
    simp only [List.map_cons, List.sum_cons, List.length_cons]
    omega

omit [DecidableEq Id] in
/-- The message tells what it names from any smaller part of it. -/
theorem cycleError_sublist {stuck all : List Mod} (h : stuck.Sublist all)
    (he : cycleError I stuck = cycleError I all) : stuck = all := by
  have hlength : ∀ ms : List Mod, (cycleError I ms).text.length =
      (ms.map fun m => (I.moduleName m ++ " ").length).sum + (cycleError I []).text.length := by
    intro ms
    simp only [cycleError, String.length_append, length_foldl_names, List.map_map]
    simp only [Function.comp_def, String.length_append, List.map_nil, List.sum_nil]
    omega
  have hsum : (stuck.map fun m => (I.moduleName m ++ " ").length).sum =
      (all.map fun m => (I.moduleName m ++ " ").length).sum := by
    have htext := congrArg (fun line => line.text.length) he
    simp only [hlength stuck, hlength all] at htext
    omega
  have hspace : " ".length = 1 := rfl
  have hle := sum_map_sublist h (fun m => (I.moduleName m ++ " ").length) (fun m => by
    rw [String.length_append]
    omega)
  apply h.eq_of_length
  have := h.length_le
  omega

end Text

section Log

theorem foldl_same {f : β → α → β} {b : β} {xs : List α} (h : ∀ x ∈ xs, f b x = b) :
    xs.foldl f b = b := by
  induction xs with
  | nil => rfl
  | cons x xs ih =>
    rw [List.foldl_cons, h x List.mem_cons_self]
    exact ih fun y hy => h y (List.mem_cons_of_mem _ hy)

/-- Modules that pass the checks are passed over in silence. -/
theorem validateModules_pass (h : ChecksPass I modules) : validateModules I modules = (true, []) := by
  apply foldl_same
  intro m hm
  obtain ⟨hcontract, hdependencies⟩ := h m hm
  have hsilent : validateDependencies I m modules = (true, []) := by
    apply foldl_same
    intro d hd
    simp only [(dependencyError_eq_none m modules d).mpr (hdependencies d hd)]
  simp [validateContract, hcontract, hsilent]

theorem resolve_pass (h : ChecksPass I modules) :
    resolve I modules = place I modules modules.length (initialPending I modules) [] := by
  unfold resolve
  rw [validateModules_pass h]
  simp

variable [DecidableEq Mod]

theorem unplaced_counters (order : List Mod) : unplaced modules (counters I modules order) =
    modules.filter fun m => counter I modules order m ≠ emitted := by
  have hall := congrArg (List.filter fun m => decide (counter I modules order m ≠ emitted))
    (List.map_getElem_finRange modules)
  rw [List.filter_map] at hall
  rw [← hall]
  rfl

/-- The one thing the placement loop logs: what it has left when it gives up. -/
theorem place_log (hd : DistinctIds I modules) (hmod : modules.Nodup) (hf : CountersFit I modules)
    (rounds : Nat) {order : List Mod} (ho : order.Nodup) (hs : ∀ x ∈ order, x ∈ modules) :
    let r := place I modules rounds (counters I modules order) order
    r.resolved = false → r.log = [cycleError I
      (modules.filter fun m => counter I modules r.order m ≠ emitted)] := by
  induction rounds generalizing order with
  | zero =>
    intro r hr
    cases hr
  | succ rounds ih =>
    rcases place_succ hd hmod hf ho hs rounds with ⟨_, he⟩ | ⟨x, hx, he⟩
    · rw [he, unplaced_counters]
      intro _ _
      rfl
    · have hxm := List.mem_of_find?_eq_some hx
      have hzero : counter I modules order x = 0 := by simpa using List.find?_some hx
      have hxo := ((counter_eq_zero_iff hd hf ho hs hxm).mp hzero).1.1
      have hkept := StableOrder.placed_snoc ho hs hxm hxo
      rw [he]
      apply ih
      · exact hkept.1
      · exact hkept.2

/-- Without a count at the mark, being marked is being placed. -/
theorem counter_eq_emitted_iff {m : Mod} (h : (targets I modules m).length < emitted.toNat)
    (order : List Mod) : counter I modules order m = emitted ↔ m ∈ order := by
  unfold counter
  split
  · rename_i hmark
    exact iff_of_true rfl (hmark.resolve_right (Nat.ne_of_lt h))
  · rename_i hmark
    have hless : (targets I modules m).length - order.countP (dependsOn I m) < emitted.toNat := by
      omega
    exact iff_of_false (ofNat_ne_emitted hless) fun hm => hmark (.inl hm)

end Log

section Verdict
variable [DecidableEq Mod] (hids : (modules.map I.getId).Nodup) (hchecks : ChecksPass I modules)
include hids hchecks

/-- Counted rightly, what is left over is exactly what leads to a cycle. -/
theorem namesCycles_of_below (honce : ∀ m ∈ modules, (targets I modules m).Nodup)
    (hbelow : CountsBelowMark I modules) : NamesCycles I modules := by
  have hfit : CountersFit I modules := by
    intro m hm
    have := hbelow m hm
    rw [emitted_toNat] at this
    omega
  have hdeclared : ∀ m ∈ modules, DeclaredOnce I modules m :=
    fun m hm => ⟨honce m hm, Nat.ne_of_lt (hbelow m hm)⟩
  have hd := distinctIds_of_nodup hids
  have hmod : modules.Nodup := hids.of_map
  unfold NamesCycles
  rw [resolve_pass hchecks, initialPending_eq]
  have hlog := place_log hd hmod hfit modules.length List.nodup_nil (by simp : ∀ x ∈ [], x ∈ modules)
  obtain ⟨hgreedy, hend⟩ := place_greedy hd hmod hfit hdeclared modules.length
    (StableOrder.Greedy.nil : StableOrder.Greedy (DeclaresOrdering I) modules []) (by simp)
  intro hfailed
  have hstuck : StableOrder.next? (DeclaresOrdering I) modules
      (place I modules modules.length (counters I modules []) []).order = none := by
    rcases hend with ⟨hresolved, _⟩ | ⟨_, _, hnone⟩
    · rw [hfailed] at hresolved
      cases hresolved
    · exact hnone
  have horder : ∀ m ∈ modules,
      m ∈ (place I modules modules.length (counters I modules []) []).order ↔
        ¬ StableOrder.LeadsToCycle (DeclaresOrdering I) modules m := by
    intro m hm
    constructor
    · exact hgreedy.needsFirst.not_leads
    · intro hnot
      by_contra hout
      obtain ⟨y, hy, hready⟩ := StableOrder.exists_ready_of_not_leads hnot hm hout
      have := List.find?_eq_none.mp hstuck y hy
      simp [hready] at this
  refine ⟨?_, horder⟩
  rw [hlog hfailed]
  congr 2
  apply List.filter_congr
  intro m hm
  rw [decide_eq_decide, ne_eq, counter_eq_emitted_iff (hbelow m hm), horder m hm, not_not]

/-- A module whose count starts at the mark is neither placed nor named. -/
theorem not_namesCycles {m : Mod} (hm : m ∈ modules) (hfit : CountersFit I modules)
    (hmark : (targets I modules m).length = emitted.toNat) : ¬ NamesCycles I modules := by
  classical
  have hd := distinctIds_of_nodup hids
  have hmod : modules.Nodup := hids.of_map
  obtain ⟨hfailed, hout⟩ := place_of_stuck hd hmod hfit hm (fun honce => honce.2 hmark) modules.length
    List.nodup_nil (by simp : ∀ x ∈ [], x ∈ modules) List.not_mem_nil (by simp)
  unfold NamesCycles
  rw [resolve_pass hchecks, initialPending_eq]
  intro hnames
  obtain ⟨hlog, horder⟩ := hnames hfailed
  rw [place_log hd hmod hfit modules.length List.nodup_nil (by simp) hfailed] at hlog
  have hleft : (modules.filter fun m => decide
        (StableOrder.LeadsToCycle (DeclaresOrdering I) modules m)) = modules.filter fun m => decide
          (m ∉ (place I modules modules.length (counters I modules []) []).order) := by
    apply List.filter_congr
    intro x hx
    rw [decide_eq_decide, horder x hx, not_not]
  rw [hleft] at hlog
  have hpart : (modules.filter fun m =>
      counter I modules (place I modules modules.length (counters I modules []) []).order m ≠
        emitted).Sublist (modules.filter fun m =>
          m ∉ (place I modules modules.length (counters I modules []) []).order) := by
    apply List.monotone_filter_right
    intro x hx
    simp only [decide_eq_true_eq] at hx ⊢
    exact fun hin => hx (if_pos (.inl hin))
  have hsame := cycleError_sublist hpart (List.cons.inj hlog).1
  have hin : m ∈ modules.filter fun m =>
      m ∉ (place I modules modules.length (counters I modules []) []).order :=
    List.mem_filter.mpr ⟨hm, by simpa using hout⟩
  rw [← hsame] at hin
  have hcount := (List.mem_filter.mp hin).2
  simp [counter, hmark] at hcount

end Verdict

/-- A failed Resolve names what leads to a cycle, and has placed the rest, as long as
every count starts below the mark of a placed module; where no count wraps, only then. -/
theorem resolve_namesCycles_iff (hids : (modules.map I.getId).Nodup) (hchecks : ChecksPass I modules)
    (honce : ∀ m ∈ modules, (targets I modules m).Nodup) :
    (CountsBelowMark I modules → NamesCycles I modules) ∧
      (CountersFit I modules → NamesCycles I modules → CountsBelowMark I modules) := by
  classical
  refine ⟨namesCycles_of_below hids hchecks honce, ?_⟩
  intro hfit hnames m hm
  by_contra hmark
  have hwidth := hfit m hm
  have hat : (targets I modules m).length = emitted.toNat := by
    rw [emitted_toNat] at hmark ⊢
    omega
  exact not_namesCycles hids hchecks hm hfit hat hnames

/-- Modules numbered up to `n`, of which the last requires all the others. -/
def requireAll (n : Nat) : Interface Nat Nat where
  getName id := toString id
  getVersion _ := { major := 1 }
  getContractVersion _ := moduleContractVersion
  getId m := m
  getDependencies m := if m = n then (List.range n).map fun id => { pModule := some id } else []

theorem requireAll_mem {n m : Nat} {d : SDependency Nat} (h : d ∈ (requireAll n).getDependencies m) :
    m = n ∧ ∃ id < n, d = { pModule := some id } := by
  simp only [requireAll] at h
  split at h
  · rename_i hm
    obtain ⟨id, hid, rfl⟩ := List.mem_map.mp h
    exact ⟨hm, id, List.mem_range.mp hid, rfl⟩
  · cases h

theorem requireAll_checks (n : Nat) : ChecksPass (requireAll n) (List.range (n + 1)) := by
  intro m _
  refine ⟨rfl, ?_⟩
  intro d hd
  obtain ⟨_, id, hid, rfl⟩ := requireAll_mem hd
  refine ⟨id, rfl, fun _ => ⟨id, List.mem_range.mpr (by omega), rfl⟩, ?_⟩
  intro hconstrained
  rw [isConstrained_default] at hconstrained
  cases hconstrained

theorem requireAll_distinct (n : Nat) : ((List.range (n + 1)).map (requireAll n).getId).Nodup := by
  have hid : (requireAll n).getId = id := rfl
  rw [hid, List.map_id]
  exact List.nodup_range

theorem targets_requireAll (n m : Nat) : targets (requireAll n) (List.range (n + 1)) m =
    if m = n then List.range n else [] := by
  have hdistinct := distinctIds_of_nodup (requireAll_distinct n)
  unfold targets
  by_cases h : m = n
  · have hdeps : (requireAll n).getDependencies m =
        (List.range n).map fun id => { pModule := some id } := if_pos h
    rw [hdeps, if_pos h, List.filterMap_map]
    have hfound : ∀ id ∈ List.range n,
        findLoaded (requireAll n) (List.range (n + 1)) (some id) = some id := by
      intro id hid
      have := List.mem_range.mp hid
      exact findLoaded_of_mem hdistinct (List.mem_range.mpr (by omega))
    have hall : (List.range n).filterMap (fun id =>
        findLoaded (requireAll n) (List.range (n + 1)) (some id)) = (List.range n).filterMap some :=
      List.filterMap_congr hfound
    rw [List.filterMap_some] at hall
    exact hall
  · have hdeps : (requireAll n).getDependencies m = [] := if_neg h
    rw [hdeps, if_neg h]
    rfl

theorem not_namesCycles_requireAll {n length : Nat} (hlength : n + 1 = length)
    (hmark : n = emitted.toNat) : ((List.range length).map (requireAll n).getId).Nodup ∧
      ChecksPass (requireAll n) (List.range length) ∧
      (∀ m ∈ List.range length, (targets (requireAll n) (List.range length) m).Nodup) ∧
      ¬ NamesCycles (requireAll n) (List.range length) := by
  subst hlength
  have hwidth : n < 2 ^ 32 := by
    rw [hmark, emitted_toNat]
    omega
  refine ⟨requireAll_distinct n, requireAll_checks n, ?_, ?_⟩
  · intro m _
    rw [targets_requireAll]
    split
    · exact List.nodup_range
    · exact List.nodup_nil
  · have hlast : n ∈ List.range (n + 1) := List.mem_range.mpr (Nat.lt_succ_self n)
    apply not_namesCycles (requireAll_distinct n) (requireAll_checks n) hlast
    · intro m _
      rw [targets_requireAll]
      split
      · rw [List.length_range]
        exact hwidth
      · exact Nat.two_pow_pos 32
    · rw [targets_requireAll, if_pos rfl, List.length_range, hmark]

/-- Without a cycle, the module that requires 2^32 - 1 others is neither placed nor named. -/
theorem resolve_passes_over :
    ((List.range (2 ^ 32)).map (requireAll (2 ^ 32 - 1)).getId).Nodup ∧
      ChecksPass (requireAll (2 ^ 32 - 1)) (List.range (2 ^ 32)) ∧
      (∀ m ∈ List.range (2 ^ 32), (targets (requireAll (2 ^ 32 - 1)) (List.range (2 ^ 32)) m).Nodup) ∧
      ¬ NamesCycles (requireAll (2 ^ 32 - 1)) (List.range (2 ^ 32)) := by
  have hlength : 2 ^ 32 - 1 + 1 = 2 ^ 32 := by omega
  exact not_namesCycles_requireAll hlength emitted_toNat.symm

/-- A pair that needs each other, one that needs the pair, and one that needs nobody. -/
def requireRing : Interface (Fin 4) (Fin 4) where
  getName id := toString id.val
  getVersion _ := { major := 1 }
  getContractVersion _ := moduleContractVersion
  getId m := m
  getDependencies m := if m = 0 then [{ pModule := some 1 }] else if m = 1 then [{ pModule := some 0 }]
    else if m = 2 then [{ pModule := some 0 }] else []

theorem resolve_namesCycles_ring : NamesCycles requireRing [0, 1, 2, 3] :=
  (resolve_namesCycles_iff (by decide) ((validateModules_fst _).mp (by decide)) (by decide)).1
    (by decide)

end TgeCore.Module
