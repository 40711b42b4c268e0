import TgeCore.Exposure.Curve
import TgeCore.Library.Interpolation

namespace TgeCore.Math

/-- Math::Lerp. -/
def lerp (a b t : ℚ) : ℚ := a + (b - a) * t

end TgeCore.Math

namespace TgeCore.Exposure
open Library

/-- There is no quotient by zero. -/
def divide (a b : ℚ) : Option ℚ := if b = 0 then none else some (a / b)

namespace CExposureCurve

/-- Evaluate's loop over the segments, with the number of those still to look at. It goes on after
a segment that has the value in it. -/
def evaluateSegments (c : CExposureCurve) (ev100 : ℚ) : Nat → Nat → ℚ → Option ℚ
  | 0, _, result => some result
  | left + 1, segment, result =>
    let low := c.key segment
    let high := c.key (segment + 1)
    if ev100 > low.ev100 ∧ ev100 ≤ high.ev100 then
      let span := high.ev100 - low.ev100
      (if span > 0 then divide (ev100 - low.ev100) span else some 0).bind fun t =>
        c.evaluateSegments ev100 left (segment + 1) (Math.lerp low.stops high.stops t)
    else c.evaluateSegments ev100 left (segment + 1) result

/-- No result would be a division by zero. -/
def evaluate (c : CExposureCurve) (ev100 : ℚ) : Option ℚ :=
  if c.numKeys > 0 then
    let result := (c.key (c.numKeys - 1)).stops
    if ev100 ≤ (c.key 0).ev100 then some (c.key 0).stops else c.evaluateSegments ev100 (c.numKeys - 1) 0 result
  else some 0

variable {c : CExposureCurve} {ev100 result : ℚ} {left segment i : Nat}

/-- A segment is open at its lower end and closed at its upper one. -/
def InSegment (c : CExposureCurve) (ev100 : ℚ) (segment : Nat) : Prop :=
  (c.key segment).ev100 < ev100 ∧ ev100 ≤ (c.key (segment + 1)).ev100

theorem lerp_eq (a b t : ℚ) : Math.lerp a b t = onLine a b t := rfl

/-- On the segment from one key to the next. -/
def onSegment (c : CExposureCurve) (segment : Nat) (ev100 : ℚ) : ℚ :=
  onLine (c.key segment).stops (c.key (segment + 1)).stops
    ((ev100 - (c.key segment).ev100) / ((c.key (segment + 1)).ev100 - (c.key segment).ev100))

theorem evaluateSegments_none (h : ∀ i, segment ≤ i → i < segment + left → ¬c.InSegment ev100 i) :
    c.evaluateSegments ev100 left segment result = some result := by
  induction left generalizing segment with
  | zero => rfl
  | succ left ih =>
    rw [evaluateSegments]
    exact (if_neg (h segment (le_refl _) (by omega))).trans (ih fun i hle hlt => h i (by omega) (by omega))

theorem Increasing.le (h : c.Increasing) {j : Nat} (hij : i ≤ j) (hj : j < c.numKeys) :
    (c.key i).ev100 ≤ (c.key j).ev100 := by
  cases Nat.eq_or_lt_of_le hij with
  | inl heq => rw [heq]
  | inr hlt => exact (h i j hlt hj).le

/-- The segments of keys that increase have no value in common. -/
theorem Increasing.segment_unique (h : c.Increasing) {j : Nat} (hi : i + 1 < c.numKeys) (hj : j + 1 < c.numKeys)
    (hvi : c.InSegment ev100 i) (hvj : c.InSegment ev100 j) : i = j := by
  have hnot : ∀ a b, c.InSegment ev100 a → c.InSegment ev100 b → b + 1 < c.numKeys → ¬a < b := by
    intro a b ha hb hlt hab
    exact absurd (ha.2.trans (h.le hab (by omega))) (not_le.mpr hb.1)
  exact le_antisymm (not_lt.mp (hnot j i hvj hvi hi)) (not_lt.mp (hnot i j hvi hvj hj))

/-- The loop goes on after the one segment that has the value, and finds no other. -/
theorem Increasing.evaluateSegments_eq (h : c.Increasing) (hleft : segment + left + 1 = c.numKeys) (hfrom : segment ≤ i)
    (hto : i < segment + left) (hin : c.InSegment ev100 i) :
    c.evaluateSegments ev100 left segment result = some (c.onSegment i ev100) := by
  induction left generalizing segment result with
  | zero => omega
  | succ left ih =>
    rw [evaluateSegments]
    simp only [gt_iff_lt]
    cases Nat.eq_or_lt_of_le hfrom with
    | inl hhere =>
      subst hhere
      have hspan : 0 < (c.key (segment + 1)).ev100 - (c.key segment).ev100 :=
        sub_pos.mpr (h segment (segment + 1) (Nat.lt_succ_self _) (by omega))
      rw [if_pos ⟨hin.1, hin.2⟩, if_pos hspan]
      unfold divide
      rw [if_neg hspan.ne', Option.bind_some, lerp_eq]
      refine evaluateSegments_none fun j hle hlt hj => ?_
      have hsame := h.segment_unique (by omega) (by omega) hin hj
      omega
    | inr hlater =>
      rw [if_neg]
      · exact ih (by omega) hlater (by omega)
      · intro hj
        have hsame := h.segment_unique (by omega) (by omega) hin hj
        omega

theorem evaluate_of_le (hkeys : 0 < c.numKeys) (h : ev100 ≤ (c.key 0).ev100) :
    c.evaluate ev100 = some (c.key 0).stops := by
  unfold evaluate
  rw [if_pos hkeys, if_pos h]

theorem evaluate_of_lt (hkeys : 0 < c.numKeys) (h : (c.key 0).ev100 < ev100) : c.evaluate ev100 =
    c.evaluateSegments ev100 (c.numKeys - 1) 0 (c.key (c.numKeys - 1)).stops := by
  unfold evaluate
  rw [if_pos hkeys, if_neg (not_le.mpr h)]

/-- Above the last key no segment has the value. -/
theorem Increasing.evaluate_above (h : c.Increasing) (hkeys : 0 < c.numKeys)
    (hlast : (c.key (c.numKeys - 1)).ev100 < ev100) : c.evaluate ev100 = some (c.key (c.numKeys - 1)).stops := by
  rw [evaluate_of_lt hkeys (lt_of_le_of_lt (h.le (Nat.zero_le _) (by omega)) hlast)]
  refine evaluateSegments_none fun i _ hi hin => ?_
  exact absurd (hin.2.trans (h.le (by omega) (by omega))) (not_le.mpr hlast)

theorem Increasing.evaluate_between (h : c.Increasing) (hi : i + 1 < c.numKeys) (hin : c.InSegment ev100 i) :
    c.evaluate ev100 = some (c.onSegment i ev100) := by
  rw [evaluate_of_lt (by omega) (lt_of_le_of_lt (h.le (Nat.zero_le i) (by omega)) hin.1)]
  exact h.evaluateSegments_eq (by omega) (Nat.zero_le i) (by omega) hin

/-- At a key the segment before it and the one after it agree. -/
theorem Increasing.evaluate_key (h : c.Increasing) (hi : i < c.numKeys) :
    c.evaluate (c.key i).ev100 = some (c.key i).stops := by
  cases i with
  | zero => exact evaluate_of_le hi (le_refl _)
  | succ i =>
    have hlt := h i (i + 1) (Nat.lt_succ_self i) hi
    rw [h.evaluate_between hi ⟨hlt, le_refl _⟩]
    unfold onSegment
    rw [div_self (sub_pos.mpr hlt).ne', onLine_one]

/-- Every value has a result, and as a function of the value it interpolates the keys. -/
theorem Increasing.interpolant (h : c.Increasing) (hkeys : 0 < c.numKeys) : ∃ f : ℚ → ℚ,
    (∀ ev100, c.evaluate ev100 = some (f ev100)) ∧
      Interpolant c.numKeys (fun i => (c.key i).ev100) (fun i => (c.key i).stops) f := by
  have hdefined : ∀ ev100, ∃ stops, c.evaluate ev100 = some stops := by
    intro ev100
    cases le_or_gt ev100 (c.key 0).ev100 with
    | inl hbelow => exact ⟨_, evaluate_of_le hkeys hbelow⟩
    | inr hlow =>
      cases le_or_gt ev100 (c.key (c.numKeys - 1)).ev100 with
      | inl hhigh =>
        obtain ⟨i, hi, hin⟩ := exists_segment (x := fun i => (c.key i).ev100) hlow hhigh
        exact ⟨_, h.evaluate_between (by omega) hin⟩
      | inr habove => exact ⟨_, h.evaluate_above hkeys habove⟩
  choose f hf using hdefined
  refine ⟨f, hf, ?_, ?_, ?_⟩
  · intro v hv
    exact Option.some.inj ((hf v).symm.trans (evaluate_of_le hkeys hv))
  · intro v hv
    refine Option.some.inj ((hf v).symm.trans ?_)
    cases eq_or_lt_of_le hv with
    | inl hlast =>
      rw [← hlast]
      exact h.evaluate_key (by omega)
    | inr habove => exact h.evaluate_above hkeys habove
  · intro i hi v hlow hhigh
    refine Option.some.inj ((hf v).symm.trans ?_)
    cases eq_or_lt_of_le hlow with
    | inl hfirst =>
      rw [← hfirst, sub_self, zero_div, onLine_zero]
      exact h.evaluate_key (by omega)
    | inr hinside => exact h.evaluate_between hi ⟨hinside, hhigh⟩

end CExposureCurve

/-- What an author of a curve relies on: its values are those of the one function that interpolates
the keys. They go through each key and stay between the least stops and the greatest. -/
structure CExposureCurve.Interpolates (c : CExposureCurve) (f : ℚ → ℚ) : Prop where
  evaluates : ∀ ev100, c.evaluate ev100 = some (f ev100)
  interpolant : Interpolant c.numKeys (fun i => (c.key i).ev100) (fun i => (c.key i).stops) f
  atKeys : ∀ i < c.numKeys, f (c.key i).ev100 = (c.key i).stops
  bounded : ∀ ev100, (∃ i < c.numKeys, (c.key i).stops ≤ f ev100) ∧ ∃ i < c.numKeys, f ev100 ≤ (c.key i).stops

/-- A curve without keys is zero, and no curve divides by zero. -/
theorem evaluate_interpolates (c : CExposureCurve) (h : c.Sound) :
    (c.numKeys = 0 → ∀ ev100, c.evaluate ev100 = some 0) ∧ (0 < c.numKeys → ∃ f, c.Interpolates f) := by
  refine ⟨fun hempty ev100 => ?_, fun hkeys => ?_⟩
  · unfold CExposureCurve.evaluate
    rw [if_neg (by omega)]
  · obtain ⟨f, hf, hinterpolant⟩ := h.increasing.interpolant hkeys
    refine ⟨f, hf, hinterpolant, fun i hi => ?_, hinterpolant.mem_range hkeys⟩
    exact hinterpolant.at_point i hi fun i hnext => h.increasing i (i + 1) (Nat.lt_succ_self i) hnext

/-- Two keys, for an example: a fall of four stops over ten. -/
def fallingCurve : CExposureCurve :=
  ((CExposureCurve.step {} (.addKey (some 10) (some (-4)))).1.step (.addKey (some 0) (some 0))).1

theorem evaluate_interpolates_falling :
    fallingCurve.evaluate 5 = some (-2) ∧ ∃ f, fallingCurve.Interpolates f := by
  refine ⟨by decide +kernel, (evaluate_interpolates fallingCurve ?_).2 (by decide +kernel)⟩
  exact (CExposureCurve.Sound.empty.step (by decide +kernel)).step (by decide +kernel)

end TgeCore.Exposure
