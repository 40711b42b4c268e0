import Mathlib.Algebra.Order.Ring.Nat
import Mathlib.Data.List.Range
import Mathlib.Data.Nat.ModEq

namespace TgeCore.Library

/-- Where the i-th of k parts of n items begins. -/
def cut (n k i : Nat) : Nat := n * i / k

section Partition
variable {n k i j m : Nat}

@[simp] theorem cut_zero : cut n k 0 = 0 := by simp [cut]

theorem cut_self (hk : 0 < k) : cut n k k = n := Nat.mul_div_cancel n hk

theorem cut_succ (hk : 0 < k) :
    cut n k (i + 1) = cut n k i + n / k + if k ≤ n * i % k + n % k then 1 else 0 := by
  unfold cut
  rw [Nat.mul_succ, Nat.add_div hk]

theorem cut_le_succ (hk : 0 < k) : cut n k i ≤ cut n k (i + 1) := by
  rw [cut_succ hk, Nat.add_assoc]
  exact Nat.le_add_right _ _

theorem cut_mono (hk : 0 < k) (hij : i ≤ j) : cut n k i ≤ cut n k j := by
  induction hij with
  | refl => exact le_refl _
  | step _ ih => exact ih.trans (cut_le_succ hk)

theorem cut_le (hk : 0 < k) (hi : i ≤ k) : cut n k i ≤ n := (cut_mono hk hi).trans_eq (cut_self hk)

/-- No part is empty where there are as many items as parts. -/
theorem cut_lt_succ (hk : 0 < k) (hkn : k ≤ n) : cut n k i < cut n k (i + 1) := by
  have hone : 0 < n / k := Nat.div_pos hkn hk
  rw [cut_succ hk]
  omega

/-- Two parts differ by one item at most. -/
theorem cut_even (hk : 0 < k) : cut n k (i + 1) - cut n k i ≤ cut n k (j + 1) - cut n k j + 1 := by
  rw [cut_succ hk, cut_succ hk]
  split_ifs
  all_goals omega

/-- The first parts one after the other. -/
theorem flatMap_cut (hk : 0 < k) (base m : Nat) :
    ((List.range m).flatMap fun i => List.range' (base + cut n k i) (cut n k (i + 1) - cut n k i)) =
      List.range' base (cut n k m) := by
  induction m with
  | zero => rw [cut_zero, List.range_zero, List.flatMap_nil, List.range'_zero]
  | succ m ih =>
    have hle := cut_le_succ (n := n) (i := m) hk
    rw [List.range_succ, List.flatMap_append, ih, List.flatMap_singleton]
    calc List.range' base (cut n k m) ++ List.range' (base + cut n k m) (cut n k (m + 1) - cut n k m)
        = List.range' base (cut n k m + (cut n k (m + 1) - cut n k m)) := by
          rw [← List.range'_append, Nat.one_mul]
      _ = List.range' base (cut n k (m + 1)) := by rw [Nat.add_sub_cancel' hle]

end Partition

end TgeCore.Library
