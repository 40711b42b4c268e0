import Mathlib.Algebra.Order.Field.Basic
import Mathlib.Tactic.Ring

namespace TgeCore.Library
variable {F : Type*}

section Field
variable [Field F]

/-- On the way from one value to another. -/
def onLine (a b t : F) : F := a + (b - a) * t

theorem onLine_zero (a b : F) : onLine a b 0 = a := by
  unfold onLine
  rw [mul_zero, add_zero]

theorem onLine_one (a b : F) : onLine a b 1 = b := by
  unfold onLine
  rw [mul_one, add_sub_cancel]

end Field

section Order
variable [Field F] [LinearOrder F]

/-- A function that goes through points, in straight lines from each to the next, and is constant
before the first and after the last. -/
structure Interpolant (count : Nat) (x y : Nat → F) (f : F → F) : Prop where
  before : ∀ v, v ≤ x 0 → f v = y 0
  after : ∀ v, x (count - 1) ≤ v → f v = y (count - 1)
  between : ∀ i, i + 1 < count → ∀ v, x i ≤ v → v ≤ x (i + 1) →
    f v = onLine (y i) (y (i + 1)) ((v - x i) / (x (i + 1) - x i))

/-- Between two values. -/
theorem onLine_mem [IsStrictOrderedRing F] {a b t : F} (h₀ : 0 ≤ t) (h₁ : t ≤ 1) :
    min a b ≤ onLine a b t ∧ onLine a b t ≤ max a b := by
  have hmix : onLine a b t = a * (1 - t) + b * t := by
    unfold onLine
    ring
  have hrest : 0 ≤ 1 - t := sub_nonneg.mpr h₁
  have hsame : ∀ m : F, m = m * (1 - t) + m * t := fun m => by ring
  rw [hmix]
  constructor
  · rw [hsame (min a b)]
    exact add_le_add (mul_le_mul_of_nonneg_right (min_le_left a b) hrest) (mul_le_mul_of_nonneg_right (min_le_right a b) h₀)
  · rw [hsame (max a b)]
    exact add_le_add (mul_le_mul_of_nonneg_right (le_max_left a b) hrest) (mul_le_mul_of_nonneg_right (le_max_right a b) h₀)

end Order

/-- What is between the first point and the last is in the part that ends at the first point not below it. -/
theorem exists_segment [LinearOrder F] {x : Nat → F} {n : Nat} {v : F} (hlow : x 0 < v) (hhigh : v ≤ x n) :
    ∃ i < n, x i < v ∧ v ≤ x (i + 1) := by
  induction n with
  | zero => exact absurd hlow (not_lt.mpr hhigh)
  | succ n ih =>
    cases lt_or_ge (x n) v with
    | inl hlast => exact ⟨n, Nat.lt_succ_self n, hlast, hhigh⟩
    | inr hearlier =>
      obtain ⟨i, hi, hsegment⟩ := ih hearlier
      exact ⟨i, Nat.lt_succ_of_lt hi, hsegment⟩

namespace Interpolant
variable [Field F] [LinearOrder F] {count : Nat} {x y : Nat → F} {f g : F → F}

theorem at_point (h : Interpolant count x y f) (i : Nat) (hi : i < count)
    (hincreasing : ∀ i, i + 1 < count → x i < x (i + 1)) : f (x i) = y i := by
  cases Nat.lt_or_ge (i + 1) count with
  | inl hnext =>
    rw [h.between i hnext (x i) (le_refl _) (hincreasing i hnext).le, sub_self, zero_div, onLine_zero]
  | inr hlast =>
    obtain rfl : i = count - 1 := by omega
    exact h.after _ (le_refl _)

/-- Every value is one of a point, or between those of two. -/
theorem mem_range [IsStrictOrderedRing F] (h : Interpolant count x y f) (hcount : 0 < count) (v : F) :
    (∃ i < count, y i ≤ f v) ∧ ∃ i < count, f v ≤ y i := by
  cases le_or_gt v (x 0) with
  | inl hbefore =>
    rw [h.before v hbefore]
    exact ⟨⟨0, hcount, le_refl _⟩, 0, hcount, le_refl _⟩
  | inr hlow =>
    cases le_or_gt (x (count - 1)) v with
    | inl hafter =>
      rw [h.after v hafter]
      exact ⟨⟨count - 1, by omega, le_refl _⟩, count - 1, by omega, le_refl _⟩
    | inr hhigh =>
      obtain ⟨i, hi, hleft, hright⟩ := exists_segment hlow hhigh.le
      have hspan : 0 < x (i + 1) - x i := sub_pos.mpr (lt_of_lt_of_le hleft hright)
      have hstart : 0 ≤ (v - x i) / (x (i + 1) - x i) := div_nonneg (sub_nonneg.mpr hleft.le) hspan.le
      have hend : (v - x i) / (x (i + 1) - x i) ≤ 1 := (div_le_one hspan).mpr (sub_le_sub_right hright _)
      obtain ⟨hmin, hmax⟩ := onLine_mem (a := y i) (b := y (i + 1)) hstart hend
      rw [h.between i (by omega) v hleft.le hright]
      constructor
      · cases min_le_iff.mp hmin with
        | inl hfirst => exact ⟨i, by omega, hfirst⟩
        | inr hsecond => exact ⟨i + 1, by omega, hsecond⟩
      · cases le_max_iff.mp hmax with
        | inl hfirst => exact ⟨i, by omega, hfirst⟩
        | inr hsecond => exact ⟨i + 1, by omega, hsecond⟩

/-- The points determine the function. -/
theorem unique (hf : Interpolant count x y f) (hg : Interpolant count x y g) : f = g := by
  funext v
  cases le_or_gt v (x 0) with
  | inl hbefore => rw [hf.before v hbefore, hg.before v hbefore]
  | inr hlow =>
    cases le_or_gt (x (count - 1)) v with
    | inl hafter => rw [hf.after v hafter, hg.after v hafter]
    | inr hhigh =>
      obtain ⟨i, hi, hleft, hright⟩ := exists_segment hlow hhigh.le
      rw [hf.between i (by omega) v hleft.le hright, hg.between i (by omega) v hleft.le hright]

end Interpolant

end TgeCore.Library
