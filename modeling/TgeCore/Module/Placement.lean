import TgeCore.Library.StableOrder
import TgeCore.Module.Graph
import Mathlib.Data.List.Dedup
import Mathlib.Data.List.FinRange

namespace TgeCore.Module
open Library

variable {Id Mod : Type} [DecidableEq Id] {I : Interface Id Mod}

/-- `pDependent` declares `pDependency` Required or Optional. -/
def DeclaresOrdering (I : Interface Id Mod) (pDependent pDependency : Mod) : Prop :=
  ∃ d ∈ I.getDependencies pDependent,
    (d.kind = .required ∨ d.kind = .optional) ∧ d.pModule = some (I.getId pDependency)

theorem isOrderingDependency_iff (kind : EDependencyKind) :
    isOrderingDependency kind = true ↔ kind = .required ∨ kind = .optional := by
  cases kind <;> simp [isOrderingDependency]

theorem foldl_or (p : α → Bool) (xs : List α) (b : Bool) :
    xs.foldl (fun found x => found || p x) b = (b || xs.any p) := by
  induction xs generalizing b with
  | nil => simp
  | cons x xs ih => simp [ih, Bool.or_assoc]

theorem dependsOn_iff (a b : Mod) : dependsOn I a b = true ↔ DeclaresOrdering I a b := by
  unfold dependsOn DeclaresOrdering
  rw [foldl_or]
  simp [isOrderingDependency_iff]

instance (I : Interface Id Mod) : DecidableRel (DeclaresOrdering I) :=
  fun a b => decidable_of_iff _ (dependsOn_iff a b)

theorem findLoaded_mem {modules : List Mod} {id : Option Id} {m : Mod}
    (h : findLoaded I modules id = some m) : m ∈ modules ∧ some (I.getId m) = id :=
  ⟨List.mem_of_find?_eq_some h, by simpa using List.find?_some h⟩

theorem findLoaded_of_mem {modules : List Mod} (hd : DistinctIds I modules) {m : Mod}
    (hm : m ∈ modules) : findLoaded I modules (some (I.getId m)) = some m := by
  cases hf : findLoaded I modules (some (I.getId m)) with
  | none =>
    have := List.find?_eq_none.mp hf m hm
    simp at this
  | some x =>
    obtain ⟨hx, he⟩ := findLoaded_mem hf
    rw [hd x hx m hm (Option.some.inj he)]

theorem findLoaded_isNone {modules : List Mod} {id : Id} :
    (findLoaded I modules (some id)).isNone = true ↔ ∀ m ∈ modules, I.getId m ≠ id := by
  simp [findLoaded]

/-- The present modules a module declares Required or Optional, once for every
declaration. Its length is the count the placement starts from. -/
def targets (I : Interface Id Mod) (modules : List Mod) (m : Mod) : List Mod :=
  (I.getDependencies m).filterMap (fun d =>
    if isOrderingDependency d.kind then findLoaded I modules d.pModule else none)

theorem mem_targets {modules : List Mod} (hd : DistinctIds I modules) {m x : Mod} :
    x ∈ targets I modules m ↔ x ∈ modules ∧ DeclaresOrdering I m x := by
  simp only [targets, List.mem_filterMap]
  constructor
  · rintro ⟨d, hm, he⟩
    split at he
    · rename_i hk
      obtain ⟨hx, hi⟩ := findLoaded_mem he
      exact ⟨hx, d, hm, (isOrderingDependency_iff _).mp hk, hi.symm⟩
    · cases he
  · rintro ⟨hx, d, hm, hk, hi⟩
    refine ⟨d, hm, ?_⟩
    rw [if_pos ((isOrderingDependency_iff _).mpr hk), hi]
    exact findLoaded_of_mem hd hx

theorem counts_eq (modules : List Mod) (d : SDependency Id) :
    counts I modules d = (if isOrderingDependency d.kind then
      findLoaded I modules d.pModule else none).isSome := by
  unfold counts
  split <;> simp_all

theorem foldl_count (p : α → Bool) (xs : List α) (n : Nat) :
    xs.foldl (fun (count : UInt32) x => if p x then count + 1 else count) (UInt32.ofNat n) =
      UInt32.ofNat (n + xs.countP p) := by
  induction xs generalizing n with
  | nil => simp
  | cons x xs ih =>
    simp only [List.foldl_cons, List.countP_cons]
    cases hp : p x with
    | true =>
      have hs : UInt32.ofNat n + 1 = UInt32.ofNat (n + 1) := by simp [UInt32.ofNat_add]
      simp only [↓reduceIte, hs, ih]
      congr 1
      omega
    | false => simp [ih]

/-- The pending count starts at the number of declarations, modulo 2^32. -/
theorem waiting_eq (modules : List Mod) (m : Mod) :
    waiting I modules m = UInt32.ofNat (targets I modules m).length := by
  have h := foldl_count (counts I modules) (I.getDependencies m) 0
  have hc : (I.getDependencies m).countP (counts I modules) = (targets I modules m).length := by
    rw [targets, List.length_filterMap_eq_countP]
    exact List.countP_congr (fun d _ => by rw [counts_eq])
  rw [hc, Nat.zero_add] at h
  exact h

/-- No pending count wraps: the counter is 32 bits wide, the lists are not. -/
def CountersFit (I : Interface Id Mod) (modules : List Mod) : Prop :=
  ∀ m ∈ modules, (targets I modules m).length < 2 ^ 32

/-- Each present module is declared at most once, and the count it gives is not
the value that marks a placed module. -/
def DeclaredOnce (I : Interface Id Mod) (modules : List Mod) (m : Mod) : Prop :=
  (targets I modules m).Nodup ∧ (targets I modules m).length ≠ emitted.toNat

instance (I : Interface Id Mod) (modules : List Mod) : Decidable (CountersFit I modules) :=
  inferInstanceAs (Decidable (∀ m ∈ modules, _))

instance [DecidableEq Mod] (I : Interface Id Mod) (modules : List Mod) (m : Mod) :
    Decidable (DeclaredOnce I modules m) :=
  inferInstanceAs (Decidable (_ ∧ _))

section Counters
variable [DecidableEq Mod] {modules order : List Mod}

/-- The pending count of `m` after `order` has been placed. -/
def counter (I : Interface Id Mod) (modules order : List Mod) (m : Mod) : UInt32 :=
  if m ∈ order ∨ (targets I modules m).length = emitted.toNat then emitted
  else UInt32.ofNat ((targets I modules m).length - order.countP (dependsOn I m))

def counters (I : Interface Id Mod) (modules order : List Mod) : Fin modules.length → UInt32 :=
  fun index => counter I modules order (modules.get index)

theorem placed_le_dedup (hd : DistinctIds I modules) (hn : order.Nodup)
    (hs : ∀ x ∈ order, x ∈ modules) (m : Mod) :
    order.countP (dependsOn I m) ≤ (targets I modules m).dedup.length := by
  rw [List.countP_eq_length_filter]
  apply List.Nodup.length_le_of_subset (hn.filter _)
  intro x hx
  obtain ⟨hx, hdep⟩ := List.mem_filter.mp hx
  exact List.mem_dedup.mpr ((mem_targets hd).mpr ⟨hs x hx, (dependsOn_iff m x).mp hdep⟩)

theorem dedup_length_le (xs : List Mod) : xs.dedup.length ≤ xs.length :=
  (List.dedup_sublist xs).length_le

theorem placed_le (hd : DistinctIds I modules) (hn : order.Nodup)
    (hs : ∀ x ∈ order, x ∈ modules) (m : Mod) :
    order.countP (dependsOn I m) ≤ (targets I modules m).length :=
  Nat.le_trans (placed_le_dedup hd hn hs m) (dedup_length_le _)

theorem emitted_toNat : emitted.toNat = 2 ^ 32 - 1 := rfl

theorem toNat_ofNat_of_lt {n : Nat} (h : n < 2 ^ 32) : (UInt32.ofNat n).toNat = n := by
  rw [UInt32.toNat_ofNat', Nat.mod_eq_of_lt h]

theorem ofNat_ne_emitted {n : Nat} (h : n < emitted.toNat) : UInt32.ofNat n ≠ emitted := by
  intro he
  have := toNat_ofNat_of_lt (n := n) (by rw [emitted_toNat] at h; omega)
  rw [he] at this
  omega

theorem initialPending_eq : (initialPending I modules : Fin modules.length → UInt32) =
    counters I modules [] := by
  funext index
  change initialPending I modules index = counter I modules [] modules[index]
  simp only [initialPending, waiting_eq, counter, List.not_mem_nil, false_or, List.countP_nil,
    Nat.sub_zero]
  split
  · rename_i h
    rw [h]
    rfl
  · rfl

/-- A count reaches zero exactly when everything the module declares is placed
and no declaration was counted twice. -/
theorem counter_eq_zero_iff (hd : DistinctIds I modules) (hf : CountersFit I modules)
    (hn : order.Nodup) (hs : ∀ x ∈ order, x ∈ modules) {m : Mod} (hm : m ∈ modules) :
    counter I modules order m = 0 ↔
      StableOrder.Ready (DeclaresOrdering I) modules order m ∧ DeclaredOnce I modules m := by
  have hlt := hf m hm
  have hle := placed_le_dedup hd hn hs m
  have hle' := dedup_length_le (targets I modules m)
  unfold counter
  split
  · rename_i h
    constructor
    · intro he
      simp [emitted] at he
    · rintro ⟨⟨hp, _⟩, _, hl⟩
      rcases h with h | h
      · exact absurd h hp
      · exact absurd h hl
  · rename_i h
    obtain ⟨hp, hl⟩ := not_or.mp h
    rw [← UInt32.toNat_inj, toNat_ofNat_of_lt (by omega), UInt32.toNat_zero]
    constructor
    · intro he
      have heq : (targets I modules m).dedup.length = (targets I modules m).length := by omega
      have hdd : (targets I modules m).dedup = targets I modules m :=
        (List.dedup_sublist _).eq_of_length heq
      refine ⟨⟨hp, ?_⟩, List.dedup_eq_self.mp hdd, hl⟩
      intro y hy hdep
      have hsub : (order.filter (dependsOn I m)).Subset (targets I modules m) := by
        intro x hx
        obtain ⟨hx, hxd⟩ := List.mem_filter.mp hx
        exact (mem_targets hd).mpr ⟨hs x hx, (dependsOn_iff m x).mp hxd⟩
      have hperm := (List.subperm_of_subset (hn.filter (dependsOn I m)) hsub).perm_of_length_le
        (by rw [← List.countP_eq_length_filter]; omega)
      have hy' := hperm.mem_iff.mpr ((mem_targets hd).mpr ⟨hy, hdep⟩)
      exact (List.mem_filter.mp hy').1
    · rintro ⟨⟨_, hready⟩, hnd, _⟩
      have : (targets I modules m).length ≤ order.countP (dependsOn I m) := by
        rw [List.countP_eq_length_filter]
        apply List.Nodup.length_le_of_subset hnd
        intro x hx
        obtain ⟨hx, hdep⟩ := (mem_targets hd).mp hx
        exact List.mem_filter.mpr ⟨hready x hx hdep, (dependsOn_iff m x).mpr hdep⟩
      omega

/-- One round of the loop turns the counts of `order` into those of `order`
with the chosen module appended. -/
theorem release_counters (hd : DistinctIds I modules) (hf : CountersFit I modules)
    (hmod : modules.Nodup) (hn : order.Nodup) (hs : ∀ x ∈ order, x ∈ modules)
    (next : Fin modules.length) (hnext : modules.get next ∉ order) :
    release I modules (counters I modules order) next =
      counters I modules (order ++ [modules.get next]) := by
  change modules[next] ∉ order at hnext
  change _ = counters I modules (order ++ [modules[next]])
  obtain ⟨hn', hs'⟩ : (order ++ [modules[next]]).Nodup ∧ ∀ x ∈ order ++ [modules[next]], x ∈ modules :=
    StableOrder.placed_snoc hn hs (List.getElem_mem _) hnext
  funext index
  by_cases hi : index = next
  · subst hi
    simp [release, counters, counter]
  · have hne : modules[index] ≠ modules[next] := by
      intro he
      exact hi (Fin.ext ((List.Nodup.getElem_inj_iff hmod).mp he))
    have hle := placed_le hd hn' hs' modules[index]
    have hlt := hf modules[index] (List.getElem_mem _)
    simp only [release, counters, Function.update_of_ne hi]
    change _ = counter I modules (order ++ [modules[next]]) modules[index]
    change (if counter I modules order modules[index] ≠ emitted ∧ _ then
      counter I modules order modules[index] - 1 else counter I modules order modules[index]) = _
    by_cases hstuck : modules[index] ∈ order ∨
        (targets I modules modules[index]).length = emitted.toNat
    · have hstuck' : modules[index] ∈ order ++ [modules[next]] ∨
          (targets I modules modules[index]).length = emitted.toNat :=
        hstuck.imp_left (List.mem_append_left _)
      simp only [counter, if_pos hstuck, if_pos hstuck', ne_eq, not_true, false_and, ↓reduceIte]
    · obtain ⟨hio, hil⟩ := not_or.mp hstuck
      have hstuck' : ¬ (modules[index] ∈ order ++ [modules[next]] ∨
          (targets I modules modules[index]).length = emitted.toNat) := by
        simp only [List.mem_append, List.mem_singleton, not_or]
        exact ⟨⟨hio, hne⟩, hil⟩
      simp only [counter, if_neg hstuck, if_neg hstuck']
      simp only [List.countP_append, List.countP_singleton] at hle ⊢
      have hemit : UInt32.ofNat ((targets I modules modules[index]).length -
          order.countP (dependsOn I modules[index])) ≠ emitted :=
        ofNat_ne_emitted (by rw [emitted_toNat] at hil ⊢; omega)
      cases hdep : dependsOn I modules[index] modules[next] with
      | false => simp
      | true =>
        simp only [hdep, ↓reduceIte] at hle
        rw [if_pos ⟨hemit, rfl⟩]
        simp only [↓reduceIte]
        have hone : (1 : UInt32).toNat = 1 := rfl
        rw [← UInt32.toNat_inj, UInt32.toNat_sub_of_le, toNat_ofNat_of_lt (by omega),
          toNat_ofNat_of_lt (by omega), hone]
        · omega
        · rw [UInt32.le_iff_toNat_le, toNat_ofNat_of_lt (by omega), hone]
          omega

end Counters

theorem nextReady_eq {n : Nat} (pending : Fin n → UInt32) :
    nextReady pending = (List.finRange n).find? (fun index => decide (pending index = 0)) := by
  unfold nextReady
  rw [List.foldl_reverse]
  generalize List.finRange n = indices
  induction indices with
  | nil => rfl
  | cons index indices ih =>
    rw [List.foldr_cons, ih, List.find?_cons]
    by_cases h : pending index = 0 <;> simp [h]

/-- The scan over the counts is a search for the first module counted down to zero. -/
theorem nextReady_counters [DecidableEq Mod] (modules order : List Mod) :
    (nextReady (counters I modules order)).map (fun index => modules.get index) =
      modules.find? (fun m => decide (counter I modules order m = 0)) := by
  have h := congrArg (List.find? (fun m => decide (counter I modules order m = 0)))
    (List.map_getElem_finRange modules)
  rw [List.find?_map] at h
  rw [nextReady_eq, ← h]
  rfl

end TgeCore.Module
