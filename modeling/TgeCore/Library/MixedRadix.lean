import Mathlib.Data.List.Basic

namespace TgeCore.Library.MixedRadix

/-- The digits of a number, each of its own radix and the last of them first, and what is left over. -/
def digits : List Nat → Nat → List Nat
  | [], n => [n]
  | radix :: radices, n => n % radix :: digits radices (n / radix)

def value : List Nat → List Nat → Nat
  | _, [] => 0
  | [], digit :: _ => digit
  | radix :: radices, digit :: rest => digit + radix * value radices rest

variable (radices : List Nat)

theorem value_digits (n : Nat) : value radices (digits radices n) = n := by
  induction radices generalizing n with
  | nil => rfl
  | cons radix radices ih => rw [digits, value, ih, Nat.mod_add_div]

theorem value_zeros (count : Nat) : value radices (List.replicate count 0) = 0 := by
  induction radices generalizing count with
  | nil => cases count <;> rfl
  | cons radix radices ih =>
    cases count with
    | zero => rfl
    | succ count => rw [List.replicate_succ, value, ih, Nat.mul_zero]

/-- The zeros at the upper end can be left out. -/
theorem value_append_zeros (ds : List Nat) (count : Nat) :
    value radices (ds ++ List.replicate count 0) = value radices ds := by
  induction radices generalizing ds with
  | nil =>
    cases ds with
    | nil => exact value_zeros [] count
    | cons d ds => rfl
  | cons radix radices ih =>
    cases ds with
    | nil => exact value_zeros (radix :: radices) count
    | cons d ds => rw [List.cons_append, value, value, ih]

end TgeCore.Library.MixedRadix
