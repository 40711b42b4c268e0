import Mathlib.Logic.Function.Basic

namespace TgeCore.Library

/-- Cells that are allocated, written and freed. The number of one is never given out again. -/
structure Cells (α : Type*) where
  cell : Nat → Option α
  next : Nat
  fresh : ∀ n, next ≤ n → cell n = none

namespace Cells
variable {α : Type*} {c : Cells α} {n other : Nat} {a : α}

def empty : Cells α := ⟨fun _ => none, 0, fun _ _ => rfl⟩

def alloc (c : Cells α) (a : α) : Cells α where
  cell := Function.update c.cell c.next (some a)
  next := c.next + 1
  fresh n hn := (Function.update_of_ne (Nat.ne_of_gt hn) ..).trans (c.fresh n (Nat.le_of_lt hn))

/-- The cell holds something else, or nothing any more. One that was never allocated stays empty. -/
def put (c : Cells α) (n : Nat) (a : Option α) : Cells α where
  cell := Function.update c.cell n (if n < c.next then a else none)
  next := c.next
  fresh other hother := by
    by_cases hsame : other = n
    · rw [hsame, Function.update_self, if_neg (Nat.not_lt.mpr (hsame ▸ hother))]
    · rw [Function.update_of_ne hsame]
      exact c.fresh other hother

def write (c : Cells α) (n : Nat) (a : α) : Cells α := c.put n (some a)

def free (c : Cells α) (n : Nat) : Cells α := c.put n none

theorem lt_next (h : c.cell n = some a) : n < c.next := by
  apply Nat.lt_of_not_le
  intro hle
  rw [c.fresh n hle] at h
  cases h

@[simp] theorem alloc_self (c : Cells α) (a : α) : (c.alloc a).cell c.next = some a := Function.update_self ..

theorem alloc_of_ne (h : n ≠ c.next) (a : α) : (c.alloc a).cell n = c.cell n := Function.update_of_ne h ..

@[simp] theorem alloc_next (c : Cells α) (a : α) : (c.alloc a).next = c.next + 1 := rfl

@[simp] theorem put_next (c : Cells α) (n : Nat) (a : Option α) : (c.put n a).next = c.next := rfl

theorem put_self (h : n < c.next) (a : Option α) : (c.put n a).cell n = a :=
  (Function.update_self ..).trans (if_pos h)

theorem put_of_ne (h : other ≠ n) (a : Option α) : (c.put n a).cell other = c.cell other := Function.update_of_ne h ..

@[simp] theorem free_self (c : Cells α) (n : Nat) : (c.free n).cell n = none :=
  (Function.update_self ..).trans (ite_self none)

theorem free_of_ne (h : other ≠ n) : (c.free n).cell other = c.cell other := put_of_ne h none

theorem write_self (h : n < c.next) (a : α) : (c.write n a).cell n = some a := put_self h _

theorem write_of_ne (h : other ≠ n) (a : α) : (c.write n a).cell other = c.cell other := put_of_ne h _

/-- What is still there after a cell was freed was there before. -/
theorem free_eq_some {b : α} : (c.free n).cell other = some b ↔ other ≠ n ∧ c.cell other = some b := by
  by_cases hsame : other = n
  · simp [hsame]
  · simp [free_of_ne hsame, hsame]

/-- A cell that holds something is the new one or was there before. -/
theorem alloc_eq_some {b : α} :
    (c.alloc a).cell n = some b ↔ (n = c.next ∧ a = b) ∨ (n ≠ c.next ∧ c.cell n = some b) := by
  by_cases hsame : n = c.next
  · simp [hsame]
  · simp [alloc_of_ne hsame, hsame]

theorem write_eq_some {b : α} (h : n < c.next) :
    (c.write n a).cell other = some b ↔ (other = n ∧ a = b) ∨ (other ≠ n ∧ c.cell other = some b) := by
  by_cases hsame : other = n
  · simp [hsame, write_self h]
  · simp [write_of_ne hsame, hsame]

end Cells

end TgeCore.Library
