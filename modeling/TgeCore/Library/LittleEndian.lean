import Mathlib.Algebra.Group.Nat.Defs

namespace TgeCore.Library.LittleEndian

/-- The low bytes of a number, lowest first. -/
def bytesOf : Nat → Nat → List UInt8
  | 0, _ => []
  | width + 1, value => UInt8.ofNat value :: bytesOf width (value / 256)

def valueOf : List UInt8 → Nat
  | [] => 0
  | byte :: bytes => byte.toNat + 256 * valueOf bytes

variable {width value : Nat}

@[simp] theorem length_bytesOf (width value : Nat) : (bytesOf width value).length = width := by
  induction width generalizing value with
  | zero => rfl
  | succ width ih => rw [bytesOf, List.length_cons, ih]

theorem valueOf_bytesOf (h : value < 256 ^ width) : valueOf (bytesOf width value) = value := by
  induction width generalizing value with
  | zero => exact (Nat.lt_one_iff.mp h).symm
  | succ width ih =>
    have hrest : value / 256 < 256 ^ width := Nat.div_lt_of_lt_mul (by rwa [Nat.pow_succ'] at h)
    rw [bytesOf, valueOf, ih hrest, UInt8.toNat_ofNat']
    omega

end TgeCore.Library.LittleEndian
