import Mathlib.Logic.Function.Basic
import Mathlib.Data.Nat.Bitwise

namespace TgeCore.Library.ByteMemory

/-- A flat memory of bytes. -/
abbrev Memory := Nat → UInt8

/-- Writing the low `n` bytes of a number from an address on, lowest byte first. -/
def store (m : Memory) : Nat → Nat → Nat → Memory
  | _, 0, _ => m
  | a, n + 1, v => Function.update (store m (a + 1) n (v / 256)) a (UInt8.ofNat v)

/-- Reading `n` bytes back as a number. -/
def load (m : Memory) : Nat → Nat → Nat
  | _, 0 => 0
  | a, n + 1 => (m a).toNat + 256 * load m (a + 1) n

def store64 (m : Memory) (a : Nat) (v : UInt64) : Memory := store m a 8 v.toNat

def load64 (m : Memory) (a : Nat) : UInt64 := UInt64.ofNat (load m a 8)

variable {m m' : Memory} {a b n k v : Nat}

/-- A write changes nothing outside of the bytes it names. -/
theorem store_frame {i : Nat} (h : i < a ∨ a + n ≤ i) : store m a n v i = m i := by
  induction n generalizing a v with
  | zero => rfl
  | succ n ih =>
    have hne : i ≠ a := by omega
    rw [store, Function.update_of_ne hne]
    exact ih (by omega)

theorem load_congr (h : ∀ i, a ≤ i → i < a + n → m i = m' i) : load m a n = load m' a n := by
  induction n generalizing a with
  | zero => rfl
  | succ n ih =>
    have hrest : load m (a + 1) n = load m' (a + 1) n :=
      ih fun i hl hu => h i (by omega) (by omega)
    rw [load, load, hrest, h a (by omega) (by omega)]

/-- Reading what was written gives it back, as far as it fits. -/
theorem load_store (m : Memory) (a n v : Nat) : load (store m a n v) a n = v % 256 ^ n := by
  induction n generalizing a v with
  | zero => simp [load, Nat.mod_one]
  | succ n ih =>
    have hrest : load (store m a (n + 1) v) (a + 1) n = load (store m (a + 1) n (v / 256)) (a + 1) n := by
      apply load_congr
      intro i hl _
      rw [store, Function.update_of_ne (by omega)]
    have hsplit : v % 256 ^ (n + 1) = v % 256 + 256 * (v / 256 % 256 ^ n) := by
      rw [Nat.pow_succ', Nat.mod_mul]
    rw [load, hrest, ih, store, Function.update_self, UInt8.toNat_ofNat', hsplit]

section Word
variable {w : UInt64}

theorem store64_frame {i : Nat} (h : i < a ∨ a + 8 ≤ i) : store64 m a w i = m i :=
  store_frame h

theorem load64_congr (h : ∀ i, a ≤ i → i < a + 8 → m i = m' i) : load64 m a = load64 m' a := by
  rw [load64, load64, load_congr h]

theorem load64_store64 (m : Memory) (a : Nat) (w : UInt64) : load64 (store64 m a w) a = w := by
  have hfits : w.toNat % 256 ^ 8 = w.toNat := Nat.mod_eq_of_lt w.toNat_lt
  rw [load64, store64, load_store, hfits, UInt64.ofNat_toNat]

theorem load64_store64_disjoint (h : b + 8 ≤ a ∨ a + 8 ≤ b) :
    load64 (store64 m a w) b = load64 m b :=
  load64_congr fun _ _ _ => store64_frame (by omega)

end Word

/-- Clearing the low bits of an address rounds it down to a multiple. -/
theorem and_not_mask {y k : Nat} (hy : y < 2 ^ 64) (hk : k < 64) :
    y &&& (2 ^ 64 - (2 ^ k - 1 + 1)) = y / 2 ^ k * 2 ^ k := by
  apply Nat.eq_of_testBit_eq
  intro i
  have hmask : 2 ^ k - 1 < 2 ^ 64 := by
    have := Nat.pow_lt_pow_right (a := 2) (by omega) hk
    omega
  rw [Nat.testBit_and, Nat.testBit_two_pow_sub_succ hmask, Nat.testBit_two_pow_sub_one,
    Nat.testBit_mul_two_pow, Nat.testBit_div_two_pow]
  by_cases hik : i < k
  · simp [hik]
  · by_cases hi : i < 64
    · simp [hik, hi, show k ≤ i by omega]
    · have hout : y.testBit i = false := Nat.testBit_lt_two_pow
        (Nat.lt_of_lt_of_le hy (Nat.pow_le_pow_right (by omega) (by omega)))
      simp [hik, hi, hout, show k ≤ i by omega]

end TgeCore.Library.ByteMemory
