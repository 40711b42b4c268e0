import Mathlib.Algebra.Order.Field.Rat
import Mathlib.Tactic.Linarith
import TgeCore.Library.Machine

namespace TgeCore.Exposure
open Library

/-- A float's exact value, or none for an infinity and for NaN. -/
abbrev Float32 := Option ℚ

structure SExposureCurveKey where
  ev100 : ℚ := 0
  stops : ℚ := 0
deriving DecidableEq

def MaxExposureCurveKeys : Nat := 16

/-- What the float 1e-4f is. -/
def DuplicateEpsilon : ℚ := 13743895 / 2 ^ 37

theorem duplicateEpsilon_pos : 0 < DuplicateEpsilon := by decide +kernel

abbrev Keys := Vector SExposureCurveKey MaxExposureCurveKeys

def Keys.key (keys : Keys) (i : Nat) : SExposureCurveKey := keys[i]?.getD {}

structure CExposureCurve where
  keys : Keys := Vector.replicate MaxExposureCurveKeys {}
  numKeys : Nat := 0
deriving DecidableEq

namespace CExposureCurve

def key (c : CExposureCurve) (i : Nat) : SExposureCurveKey := c.keys.key i

/-- AddKey's search, with the number of keys still to look at. -/
def searchSlot (c : CExposureCurve) (ev100 : ℚ) : Nat → Nat → Nat
  | 0, slot => slot
  | left + 1, slot =>
    if (c.key slot).ev100 < ev100 - DuplicateEpsilon then c.searchSlot ev100 left (slot + 1) else slot

def slot (c : CExposureCurve) (ev100 : ℚ) : Nat := c.searchSlot ev100 c.numKeys 0

def Replaces (c : CExposureCurve) (ev100 : ℚ) : Prop :=
  c.slot ev100 < c.numKeys ∧ |(c.key (c.slot ev100)).ev100 - ev100| ≤ DuplicateEpsilon

instance (c : CExposureCurve) (ev100 : ℚ) : Decidable (c.Replaces ev100) :=
  inferInstanceAs (Decidable (_ ∧ _))

/-- The keys from `slot` on move up by one, the last of them first. -/
def shiftUp (keys : Keys) (slot : Nat) : Nat → Keys
  | 0 => keys
  | shift + 1 =>
    if slot < shift + 1 then shiftUp (keys.setIfInBounds (shift + 1) (keys.key shift)) slot shift else keys

/-- So many keys move down by one. -/
def shiftDown (keys : Keys) (shift : Nat) : Nat → Keys
  | 0 => keys
  | left + 1 => shiftDown (keys.setIfInBounds shift (keys.key (shift + 1))) (shift + 1) left

def addKey (c : CExposureCurve) (ev100 stops : Float32) : CExposureCurve × Bool :=
  match ev100, stops with
  | some ev100, some stops =>
    let slot := c.slot ev100
    if c.Replaces ev100 then ({ c with keys := c.keys.setIfInBounds slot ⟨ev100, stops⟩ }, true)
    else if c.numKeys < MaxExposureCurveKeys then
      ({ keys := (shiftUp c.keys slot c.numKeys).setIfInBounds slot ⟨ev100, stops⟩, numKeys := c.numKeys + 1 },
        true)
    else (c, false)
  | _, _ => (c, false)

def removeKey (c : CExposureCurve) (index : Nat) : CExposureCurve × Bool :=
  if index < c.numKeys then
    ({ keys := shiftDown c.keys index (c.numKeys - 1 - index), numKeys := c.numKeys - 1 }, true)
  else (c, false)

def clear (c : CExposureCurve) : CExposureCurve := { c with numKeys := 0 }

end CExposureCurve

inductive CurveCall where
  | addKey (ev100 stops : Float32)
  | removeKey (index : Nat)
  | clear
deriving DecidableEq

def CExposureCurve.step (c : CExposureCurve) : CurveCall → CExposureCurve × Bool
  | .addKey ev100 stops => c.addKey ev100 stops
  | .removeKey index => c.removeKey index
  | .clear => (c.clear, true)

/-- A curve under a sequence of calls, with what they return. -/
def curve : Machine CExposureCurve CurveCall Bool := ⟨fun c call => some (c.step call)⟩

namespace CExposureCurve
variable {c : CExposureCurve} {keys : Keys} {ev100 stops : ℚ} {i j slot shift left : Nat}

theorem key_setIfInBounds (keys : Keys) (j : Nat) (new : SExposureCurveKey) (i : Nat) (hj : j < 16) :
    Keys.key (keys.setIfInBounds j new) i = if i = j then new else keys.key i := by
  unfold Keys.key
  rw [Vector.getElem?_setIfInBounds]
  by_cases h : j = i
  · subst h
    simp [hj, MaxExposureCurveKeys]
  · simp [h, Ne.symm h]

theorem key_shiftUp (keys : Keys) (slot n i : Nat) (hn : n < 16) :
    (shiftUp keys slot n).key i = if slot < i ∧ i ≤ n then keys.key (i - 1) else keys.key i := by
  induction n generalizing keys with
  | zero =>
    rw [shiftUp, if_neg (by omega)]
  | succ n ih =>
    rw [shiftUp]
    by_cases h : slot < n + 1
    · rw [if_pos h, ih _ (by omega), key_setIfInBounds _ _ _ _ hn, key_setIfInBounds _ _ _ _ hn]
      split_ifs
      all_goals first | rfl | omega | (congr 1; omega)
    · rw [if_neg h, if_neg (by omega)]

theorem key_shiftDown (keys : Keys) (shift left i : Nat) (hleft : shift + left < 16) :
    (shiftDown keys shift left).key i =
      if shift ≤ i ∧ i < shift + left then keys.key (i + 1) else keys.key i := by
  induction left generalizing keys shift with
  | zero => rw [shiftDown, if_neg (by omega)]
  | succ left ih =>
    rw [shiftDown, ih _ _ (by omega), key_setIfInBounds _ _ _ _ (by omega), key_setIfInBounds _ _ _ _ (by omega)]
    split_ifs
    all_goals first | rfl | omega | (congr 1; omega)

/-- The search stops at the first key that is not below the tolerance. -/
theorem searchSlot_spec (c : CExposureCurve) (ev100 : ℚ) (left slot : Nat)
    (hbefore : ∀ i < slot, (c.key i).ev100 < ev100 - DuplicateEpsilon) :
    slot ≤ c.searchSlot ev100 left slot ∧ c.searchSlot ev100 left slot ≤ slot + left ∧
    (∀ i < c.searchSlot ev100 left slot, (c.key i).ev100 < ev100 - DuplicateEpsilon) ∧
    (c.searchSlot ev100 left slot < slot + left →
      ev100 - DuplicateEpsilon ≤ (c.key (c.searchSlot ev100 left slot)).ev100) := by
  induction left generalizing slot with
  | zero => exact ⟨le_refl _, le_refl _, hbefore, fun h => absurd h (lt_irrefl _)⟩
  | succ left ih =>
    rw [searchSlot]
    split
    · rename_i hbelow
      have hnext : ∀ i < slot + 1, (c.key i).ev100 < ev100 - DuplicateEpsilon := by
        intro i hi
        cases Nat.lt_succ_iff_lt_or_eq.mp hi with
        | inl hlt => exact hbefore i hlt
        | inr heq => exact heq ▸ hbelow
      obtain ⟨hle, hbound, hall, hstop⟩ := ih (slot + 1) hnext
      exact ⟨by omega, by omega, hall, fun h => hstop (by omega)⟩
    · rename_i hreached
      exact ⟨le_refl _, by omega, hbefore, fun _ => not_lt.mp hreached⟩

theorem slot_spec (c : CExposureCurve) (ev100 : ℚ) : c.slot ev100 ≤ c.numKeys ∧
    (∀ i < c.slot ev100, (c.key i).ev100 < ev100 - DuplicateEpsilon) ∧
    (c.slot ev100 < c.numKeys → ev100 - DuplicateEpsilon ≤ (c.key (c.slot ev100)).ev100) := by
  have hspec := (searchSlot_spec c ev100 c.numKeys 0 (by simp)).2
  rwa [Nat.zero_add] at hspec

/-- The keys' exposure values increase. -/
def Increasing (c : CExposureCurve) : Prop :=
  ∀ i j, i < j → j < c.numKeys → (c.key i).ev100 < (c.key j).ev100

/-- What a call keeps of the curve's representation. -/
structure Keeps (c : CExposureCurve) (call : CurveCall) (c' : CExposureCurve) (added : Bool) : Prop where
  increasing : c'.Increasing
  few : c'.numKeys ≤ MaxExposureCurveKeys
  replaces : ∀ ev100 stops i, call = .addKey (some ev100) (some stops) → i < c.numKeys →
    |(c.key i).ev100 - ev100| ≤ DuplicateEpsilon →
    added = true ∧ c'.numKeys = c.numKeys ∧ ∃ slot < c.numKeys,
      |(c.key slot).ev100 - ev100| ≤ DuplicateEpsilon ∧
      ∀ j, c'.key j = if j = slot then ⟨ev100, stops⟩ else c.key j
  refuses : ∀ ev100 stops, call = .addKey ev100 stops → added = false → c' = c

/-- Of the keys that are not above the added one, at most one is within the tolerance of it. -/
def Clear (c : CExposureCurve) (call : CurveCall) : Prop :=
  match call with
  | .addKey (some ev100) (some _) => ∀ j < c.numKeys, ∀ i < j,
    ev100 - DuplicateEpsilon ≤ (c.key i).ev100 → ev100 < (c.key j).ev100
  | _ => True

instance (c : CExposureCurve) : ∀ call, Decidable (c.Clear call)
  | .addKey (some ev100) (some _) => inferInstanceAs (Decidable (∀ j < c.numKeys, ∀ i < j,
    ev100 - DuplicateEpsilon ≤ (c.key i).ev100 → ev100 < (c.key j).ev100))
  | .addKey none _ | .addKey (some _) none | .removeKey _ | .clear => isTrue trivial

structure Sound (c : CExposureCurve) : Prop where
  increasing : c.Increasing
  few : c.numKeys ≤ MaxExposureCurveKeys

/-- A key within the tolerance means that the slot's key is. -/
theorem Sound.replaces (h : c.Sound) (hi : i < c.numKeys)
    (hnear : |(c.key i).ev100 - ev100| ≤ DuplicateEpsilon) : c.Replaces ev100 := by
  obtain ⟨hlow, hhigh⟩ := abs_le.mp hnear
  have hle : c.slot ev100 ≤ i := by
    by_contra hlt
    have := (c.slot_spec ev100).2.1 i (not_le.mp hlt)
    linarith
  have hslot : c.slot ev100 < c.numKeys := lt_of_le_of_lt hle hi
  have hreached := (c.slot_spec ev100).2.2 hslot
  have hbelow : (c.key (c.slot ev100)).ev100 ≤ (c.key i).ev100 := by
    cases Nat.eq_or_lt_of_le hle with
    | inl heq => rw [heq]
    | inr hlt => exact le_of_lt (h.increasing _ _ hlt hi)
  exact ⟨hslot, abs_le.mpr ⟨by linarith, by linarith⟩⟩

/-- Where nothing is replaced, the keys from the slot on are above the new one. -/
theorem Sound.above (h : c.Sound) (hnew : ¬ c.Replaces ev100) (hi : c.slot ev100 ≤ i) (hlt : i < c.numKeys) :
    ev100 < (c.key i).ev100 := by
  have heps := duplicateEpsilon_pos
  have hslot : c.slot ev100 < c.numKeys := lt_of_le_of_lt hi hlt
  have hreached := (c.slot_spec ev100).2.2 hslot
  have hfar : ev100 < (c.key (c.slot ev100)).ev100 := by
    by_contra hle
    exact hnew ⟨hslot, abs_le.mpr ⟨by linarith, by linarith⟩⟩
  cases Nat.eq_or_lt_of_le hi with
  | inl heq => rwa [← heq]
  | inr hlater => exact hfar.trans (h.increasing _ _ hlater hlt)

theorem Sound.clear_iff (h : c.Sound) : c.Clear (.addKey (some ev100) (some stops)) ↔
    (c.Replaces ev100 → c.slot ev100 + 1 < c.numKeys → ev100 < (c.key (c.slot ev100 + 1)).ev100) := by
  constructor
  · intro hclear hrep hnext
    exact hclear _ hnext _ (Nat.lt_succ_self _) ((c.slot_spec ev100).2.2 hrep.1)
  · intro hnext j hj i hij hlow
    have hslot : c.slot ev100 ≤ i := by
      by_contra hbefore
      have := (c.slot_spec ev100).2.1 i (not_le.mp hbefore)
      linarith
    by_cases hrep : c.Replaces ev100
    · have hlt := hnext hrep (by omega)
      cases Nat.eq_or_lt_of_le (Nat.succ_le_of_lt (lt_of_le_of_lt hslot hij)) with
      | inl heq => rwa [← heq]
      | inr hlater => exact hlt.trans (h.increasing _ _ hlater hj)
    · exact h.above hrep (by omega) hj

/-- The curve with the slot's key replaced. -/
def replaced (c : CExposureCurve) (ev100 stops : ℚ) : CExposureCurve :=
  { c with keys := c.keys.setIfInBounds (c.slot ev100) ⟨ev100, stops⟩ }

/-- The curve with a key more before the slot's. -/
def inserted (c : CExposureCurve) (ev100 stops : ℚ) : CExposureCurve :=
  { keys := (shiftUp c.keys (c.slot ev100) c.numKeys).setIfInBounds (c.slot ev100) ⟨ev100, stops⟩
    numKeys := c.numKeys + 1 }

theorem Sound.key_replaced (h : c.Sound) (hrep : c.Replaces ev100) (i : Nat) :
    (c.replaced ev100 stops).key i = if i = c.slot ev100 then ⟨ev100, stops⟩ else c.key i :=
  key_setIfInBounds _ _ _ _ (lt_of_lt_of_le hrep.1 h.few)

/-- Replacing keeps the order exactly where the next key is above the new one. -/
theorem Sound.increasing_replaced (h : c.Sound) (hrep : c.Replaces ev100) :
    (c.replaced ev100 stops).Increasing ↔
      (c.slot ev100 + 1 < c.numKeys → ev100 < (c.key (c.slot ev100 + 1)).ev100) := by
  constructor
  · intro hinc hnext
    have hlt := hinc (c.slot ev100) (c.slot ev100 + 1) (by omega) hnext
    rwa [h.key_replaced hrep, h.key_replaced hrep, if_pos rfl, if_neg (by omega)] at hlt
  · intro hclear i j hij hj
    change j < c.numKeys at hj
    have heps := duplicateEpsilon_pos
    rw [h.key_replaced hrep, h.key_replaced hrep]
    split_ifs with hi hj'
    · omega
    · subst hi
      have hnext := hclear (by omega)
      cases Nat.eq_or_lt_of_le (Nat.succ_le_of_lt hij) with
      | inl heq => rwa [← heq]
      | inr hlt => exact hnext.trans (h.increasing _ _ hlt hj)
    · have hbelow := (c.slot_spec ev100).2.1 i (by omega)
      change (c.key i).ev100 < ev100
      linarith
    · exact h.increasing i j hij hj

theorem Sound.key_inserted (hroom : c.numKeys < MaxExposureCurveKeys) (i : Nat) :
    (c.inserted ev100 stops).key i =
      if i = c.slot ev100 then ⟨ev100, stops⟩
      else if c.slot ev100 < i ∧ i ≤ c.numKeys then c.key (i - 1) else c.key i := by
  have hslot := (c.slot_spec ev100).1
  have hmax : MaxExposureCurveKeys = 16 := rfl
  exact (key_setIfInBounds _ _ _ _ (by omega)).trans (if_congr Iff.rfl rfl (key_shiftUp _ _ _ _ (by omega)))

theorem Sound.increasing_inserted (h : c.Sound) (hnew : ¬ c.Replaces ev100)
    (hroom : c.numKeys < MaxExposureCurveKeys) : (c.inserted ev100 stops).Increasing := by
  intro i j hij hj
  obtain ⟨hle, hbelow, hreached⟩ := c.slot_spec ev100
  have heps := duplicateEpsilon_pos
  change j < c.numKeys + 1 at hj
  rw [key_inserted hroom, key_inserted hroom]
  split_ifs with hi hj' hmoved hj' hmoved hmoved' hj' hmoved
  · omega
  · change ev100 < (c.key (j - 1)).ev100
    exact h.above hnew (by omega) (by omega)
  · omega
  · omega
  · exact h.increasing (i - 1) (j - 1) (by omega) (by omega)
  · omega
  · have := hbelow i (by omega)
    change (c.key i).ev100 < ev100
    linarith
  · cases Nat.lt_or_ge i (j - 1) with
    | inl hlt => exact h.increasing i (j - 1) hlt (by omega)
    | inr hge => omega
  · exact h.increasing i j hij (by omega)

theorem Sound.increasing_removeKey (h : c.Sound) (index : Nat) : (c.removeKey index).1.Increasing := by
  unfold removeKey
  split
  · rename_i hindex
    intro i j hij hj
    change j < c.numKeys - 1 at hj
    have hfew := h.few
    have hmax : MaxExposureCurveKeys = 16 := rfl
    unfold key
    rw [key_shiftDown _ _ _ _ (by omega), key_shiftDown _ _ _ _ (by omega)]
    split_ifs
    · exact h.increasing (i + 1) (j + 1) (by omega) (by omega)
    · omega
    · exact h.increasing i (j + 1) (by omega) (by omega)
    · exact h.increasing i j hij (by omega)
  · exact h.increasing

theorem Sound.removeKey (h : c.Sound) (index : Nat) : (c.removeKey index).1.Sound := by
  refine ⟨h.increasing_removeKey index, ?_⟩
  have hfew := h.few
  unfold CExposureCurve.removeKey
  split
  · exact (Nat.sub_le _ _).trans hfew
  · exact hfew

theorem addKey_replaced (hrep : c.Replaces ev100) :
    c.addKey (some ev100) (some stops) = (c.replaced ev100 stops, true) := if_pos hrep

theorem addKey_inserted (hnew : ¬ c.Replaces ev100) (hroom : c.numKeys < MaxExposureCurveKeys) :
    c.addKey (some ev100) (some stops) = (c.inserted ev100 stops, true) := by
  simp only [addKey, if_neg hnew, if_pos hroom]
  rfl

theorem addKey_full (hnew : ¬ c.Replaces ev100) (hroom : ¬ c.numKeys < MaxExposureCurveKeys) :
    c.addKey (some ev100) (some stops) = (c, false) := by
  simp only [addKey, if_neg hnew, if_neg hroom]

/-- What AddKey returns false for it has not touched. -/
theorem addKey_refuses (ev100 stops : Float32) (hfalse : (c.addKey ev100 stops).2 = false) :
    (c.addKey ev100 stops).1 = c := by
  cases ev100 with
  | none => rfl
  | some ev100 =>
    cases stops with
    | none => rfl
    | some stops =>
      by_cases hrep : c.Replaces ev100
      · simp [addKey_replaced hrep] at hfalse
      · by_cases hroom : c.numKeys < MaxExposureCurveKeys
        · simp [addKey_inserted hrep hroom] at hfalse
        · rw [addKey_full hrep hroom]

theorem Sound.addKey_increasing (h : c.Sound) (ev100 stops : ℚ) :
    (c.addKey (some ev100) (some stops)).1.Increasing ↔ c.Clear (.addKey (some ev100) (some stops)) := by
  rw [h.clear_iff]
  by_cases hrep : c.Replaces ev100
  · rw [addKey_replaced hrep, h.increasing_replaced hrep]
    exact ⟨fun hclear _ => hclear, fun hclear => hclear hrep⟩
  · refine iff_of_true ?_ (fun hclear => absurd hclear hrep)
    by_cases hroom : c.numKeys < MaxExposureCurveKeys
    · rw [addKey_inserted hrep hroom]
      exact h.increasing_inserted hrep hroom
    · rw [addKey_full hrep hroom]
      exact h.increasing

theorem Sound.addKey_few (h : c.Sound) (ev100 stops : ℚ) :
    (c.addKey (some ev100) (some stops)).1.numKeys ≤ MaxExposureCurveKeys := by
  by_cases hrep : c.Replaces ev100
  · rw [addKey_replaced hrep]
    exact h.few
  · by_cases hroom : c.numKeys < MaxExposureCurveKeys
    · rw [addKey_inserted hrep hroom]
      exact hroom
    · rw [addKey_full hrep hroom]
      exact h.few

/-- A call keeps the order of a curve exactly where it is clear. -/
theorem Sound.step_increasing (h : c.Sound) (call : CurveCall) :
    (c.step call).1.Increasing ↔ c.Clear call := by
  cases call with
  | addKey ev100 stops =>
    cases ev100 with
    | none => exact iff_of_true h.increasing trivial
    | some ev100 =>
      cases stops with
      | none => exact iff_of_true h.increasing trivial
      | some stops => exact h.addKey_increasing ev100 stops
  | removeKey index => exact iff_of_true (h.increasing_removeKey index) trivial
  | clear => exact iff_of_true (fun i j _ hj => absurd hj (Nat.not_lt_zero j)) trivial

theorem Sound.step_few (h : c.Sound) (call : CurveCall) : (c.step call).1.numKeys ≤ MaxExposureCurveKeys := by
  cases call with
  | addKey ev100 stops =>
    cases ev100 with
    | none => exact h.few
    | some ev100 =>
      cases stops with
      | none => exact h.few
      | some stops => exact h.addKey_few ev100 stops
  | removeKey index => exact (h.removeKey index).few
  | clear => exact Nat.zero_le _

/-- All that is asked of a call but the order holds of every call. -/
theorem Sound.keeps_iff (h : c.Sound) (call : CurveCall) :
    c.Keeps call (c.step call).1 (c.step call).2 ↔ c.Clear call := by
  refine ⟨fun hkeeps => (h.step_increasing call).mp hkeeps.increasing, fun hclear => ?_⟩
  refine ⟨(h.step_increasing call).mpr hclear, h.step_few call, ?_, ?_⟩
  · rintro ev100 stops i rfl hi hnear
    have hrep := h.replaces hi hnear
    change (c.addKey _ _).2 = true ∧ (c.addKey _ _).1.numKeys = c.numKeys ∧ _
    rw [addKey_replaced hrep]
    refine ⟨rfl, rfl, c.slot ev100, hrep.1, hrep.2, fun j => ?_⟩
    change (c.addKey _ _).1.key j = _
    rw [addKey_replaced hrep, h.key_replaced hrep]
  · rintro ev100 stops rfl hfalse
    exact addKey_refuses ev100 stops hfalse

theorem Sound.step (h : c.Sound) {call : CurveCall} (hclear : c.Clear call) : (c.step call).1.Sound :=
  ⟨(h.step_increasing call).mpr hclear, h.step_few call⟩

theorem Sound.empty : Sound {} := ⟨fun _ j _ hj => absurd hj (Nat.not_lt_zero j), Nat.zero_le _⟩

end CExposureCurve

theorem curve_run (calls : List CurveCall) (c : CExposureCurve) :
    ∃ c' added, curve.run c calls = some (c', added) :=
  Machine.run_exists calls (fun _ _ _ => ⟨_, _, rfl⟩) c

theorem CExposureCurve.Sound.along_iff {c : CExposureCurve} (h : c.Sound) (calls : List CurveCall) :
    curve.Along (fun c call => ∀ next ∈ curve.step c call, c.Keeps call next.1 next.2) c calls ↔
      curve.Along CExposureCurve.Clear c calls := by
  obtain ⟨c', added, hrun⟩ := curve_run calls c
  refine Machine.Along.congr CExposureCurve.Sound ?_ h hrun
  intro c call c' added hsound hstep
  have hnext : c.step call = (c', added) := Option.some.inj hstep
  rw [hstep]
  simp only [Option.mem_some_iff, forall_eq']
  have hiff := hsound.keeps_iff call
  have hsound' : c.Clear call → (c.step call).1.Sound := hsound.step
  rw [hnext] at hiff hsound'
  exact ⟨hiff, hsound'⟩

/-- A new curve keeps its representation under a sequence of calls exactly if
every call of the sequence is clear when it comes. -/
theorem curve_keeps (calls : List CurveCall) :
    curve.Along (fun c call => ∀ next ∈ curve.step c call, c.Keeps call next.1 next.2) {} calls ↔
      curve.Along CExposureCurve.Clear {} calls :=
  CExposureCurve.Sound.empty.along_iff calls

/-- The third call moves the first key near the second, and the fourth moves it on past the second. -/
theorem curve_loses_order : ¬ curve.Along (fun c call => ∀ next ∈ curve.step c call, c.Keeps call next.1 next.2)
    {} [.addKey (some 0) (some 0), .addKey (some (10 / 65536)) (some 0), .addKey (some (6 / 65536)) (some 0),
      .addKey (some (11 / 65536)) (some 0)] := by
  rw [CExposureCurve.Sound.empty.along_iff]
  decide +kernel

end TgeCore.Exposure
