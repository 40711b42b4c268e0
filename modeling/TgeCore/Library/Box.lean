import Mathlib.Analysis.InnerProductSpace.PiL2
import Mathlib.Analysis.Normed.Module.Ball.Pointwise
import Mathlib.Topology.MetricSpace.HausdorffDistance

namespace TgeCore.Library
open Metric

section Box
variable {ι : Type*} {lo hi : ι → ℝ} {p q : EuclideanSpace ℝ ι}

/-- The points between two corners on every axis. -/
def box (lo hi : ι → ℝ) : Set (EuclideanSpace ℝ ι) := {p | ∀ i, lo i ≤ p i ∧ p i ≤ hi i}

/-- The point of the box that is nearest to another, axis by axis. -/
noncomputable def boxNearest (lo hi : ι → ℝ) (p : EuclideanSpace ℝ ι) : EuclideanSpace ℝ ι :=
  WithLp.toLp _ fun i => min (max (p i) (lo i)) (hi i)

theorem boxNearest_mem (hordered : ∀ i, lo i ≤ hi i) : boxNearest lo hi p ∈ box lo hi := by
  intro i
  exact ⟨le_min (le_max_right _ _) (hordered i), min_le_right _ _⟩

/-- On one axis, nothing between the corners is nearer. -/
theorem abs_sub_clamp_le {low high x y : ℝ} (hlow : low ≤ y) (hhigh : y ≤ high) :
    |x - min (max x low) high| ≤ |x - y| := by
  have hxy := neg_abs_le (x - y)
  have hyx := le_abs_self (x - y)
  apply abs_le.mpr
  rcases le_total x low with hbelow | hin
  · rw [max_eq_right hbelow, min_eq_left (hlow.trans hhigh)]
    exact ⟨by linarith, by linarith⟩
  · rw [max_eq_left hin]
    rcases le_total x high with hle | habove
    · rw [min_eq_left hle, sub_self]
      exact ⟨by linarith [abs_nonneg (x - y)], abs_nonneg (x - y)⟩
    · rw [min_eq_right habove]
      exact ⟨by linarith, by linarith⟩

variable [Fintype ι]

theorem dist_boxNearest_le (hq : q ∈ box lo hi) : dist p (boxNearest lo hi p) ≤ dist p q := by
  rw [EuclideanSpace.dist_eq, EuclideanSpace.dist_eq]
  apply Real.sqrt_le_sqrt
  apply Finset.sum_le_sum
  intro i _
  apply pow_le_pow_left₀ dist_nonneg
  rw [Real.dist_eq, Real.dist_eq]
  exact abs_sub_clamp_le (hq i).1 (hq i).2

theorem infDist_box (hordered : ∀ i, lo i ≤ hi i) :
    infDist p (box lo hi) = dist p (boxNearest lo hi p) := by
  apply le_antisymm
  · exact infDist_le_dist_of_mem (boxNearest_mem hordered)
  · apply (le_infDist ⟨_, boxNearest_mem (p := p) hordered⟩).mpr
    intro q hq
    exact dist_boxNearest_le hq

theorem box_meets_closedBall (hordered : ∀ i, lo i ≤ hi i) (r : ℝ) :
    (box lo hi ∩ closedBall p r).Nonempty ↔ infDist p (box lo hi) ≤ r := by
  constructor
  · rintro ⟨q, hq, hball⟩
    calc infDist p (box lo hi) ≤ dist p q := infDist_le_dist_of_mem hq
      _ ≤ r := by rw [dist_comm]; exact mem_closedBall.mp hball
  · intro hle
    rw [infDist_box hordered] at hle
    refine ⟨boxNearest lo hi p, boxNearest_mem hordered, mem_closedBall.mpr ?_⟩
    rw [dist_comm]
    exact hle

end Box

theorem closedBalls_meet {E : Type*} [SeminormedAddCommGroup E] [NormedSpace ℝ E] {p q : E} {r s : ℝ}
    (hr : 0 ≤ r) (hs : 0 ≤ s) : (closedBall p r ∩ closedBall q s).Nonempty ↔ dist p q ≤ r + s := by
  rw [← Set.not_disjoint_iff_nonempty_inter, disjoint_closedBall_closedBall_iff hr hs, not_lt]

end TgeCore.Library
