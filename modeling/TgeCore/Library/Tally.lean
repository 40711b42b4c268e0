import Mathlib.Data.List.Basic

namespace TgeCore.Library

/-- A measure summed over the parts of a system. -/
def tally {α : Type*} (f : α → Nat) : List α → Nat
  | [] => 0
  | a :: parts => f a + tally f parts

section Tally
variable {α : Type*} {f : α → Nat} {parts : List α} {a b : α} {i : Nat}

@[simp] theorem tally_nil : tally f [] = 0 := rfl

@[simp] theorem tally_cons : tally f (a :: parts) = f a + tally f parts := rfl

@[simp] theorem tally_append {parts' : List α} :
    tally f (parts ++ parts') = tally f parts + tally f parts' := by
  induction parts with
  | nil => simp
  | cons a rest ih =>
    rw [List.cons_append, tally_cons, tally_cons, ih]
    omega

@[simp] theorem tally_map {β : Type*} {f : β → Nat} (h : α → β) :
    tally f (parts.map h) = tally (fun a => f (h a)) parts := by
  induction parts with
  | nil => rfl
  | cons a rest ih => rw [List.map_cons, tally_cons, tally_cons, ih]

@[simp] theorem tally_replicate {n : Nat} : tally f (List.replicate n a) = n * f a := by
  induction n with
  | zero => simp
  | succ n ih => rw [List.replicate_succ, tally_cons, ih, Nat.succ_mul, Nat.add_comm]

theorem tally_flatMap {β : Type*} {f : β → Nat} (h : α → List β) :
    tally f (parts.flatMap h) = tally (fun a => tally f (h a)) parts := by
  induction parts with
  | nil => rfl
  | cons a rest ih => rw [List.flatMap_cons, tally_append, tally_cons, ih]

/-- One part takes the place of another: the total changes by what they measure. -/
theorem tally_set (h : parts[i]? = some a) : tally f (parts.set i b) + f a = tally f parts + f b := by
  induction parts generalizing i with
  | nil => cases h
  | cons c rest ih =>
    cases i with
    | zero =>
      obtain rfl : c = a := by simpa using h
      simp only [List.set_cons_zero, tally_cons]
      omega
    | succ i =>
      have hrest := ih (i := i) (by simpa using h)
      simp only [List.set_cons_succ, tally_cons]
      omega

theorem tally_erase [DecidableEq α] (h : a ∈ parts) : tally f (parts.erase a) + f a = tally f parts := by
  induction parts with
  | nil => cases h
  | cons b rest ih =>
    by_cases hb : b = a
    · subst hb
      rw [List.erase_cons_head, tally_cons]
      omega
    · have hrest := ih ((List.mem_cons.mp h).resolve_left (Ne.symm hb))
      rw [List.erase_cons_tail (by simpa using hb), tally_cons, tally_cons]
      omega

theorem tally_eraseIdx (h : parts[i]? = some a) : tally f (parts.eraseIdx i) + f a = tally f parts := by
  induction parts generalizing i with
  | nil => cases h
  | cons c rest ih =>
    cases i with
    | zero =>
      obtain rfl : c = a := by simpa using h
      rw [List.eraseIdx_cons_zero, tally_cons, Nat.add_comm]
    | succ i =>
      have hrest := ih (i := i) (by simpa using h)
      rw [List.eraseIdx_cons_succ, tally_cons, tally_cons]
      omega

theorem tally_eq_zero : tally f parts = 0 ↔ ∀ a ∈ parts, f a = 0 := by
  induction parts with
  | nil => simp
  | cons a rest ih => simp [ih]

@[simp] theorem tally_zero : tally (fun _ => 0) parts = 0 := tally_eq_zero.mpr fun _ _ => rfl

theorem tally_one : tally (fun _ => 1) parts = parts.length := by
  induction parts with
  | nil => rfl
  | cons a rest ih => rw [tally_cons, ih, List.length_cons, Nat.add_comm]

theorem tally_le {g : α → Nat} (h : ∀ a ∈ parts, f a ≤ g a) : tally f parts ≤ tally g parts := by
  induction parts with
  | nil => exact Nat.le_refl _
  | cons a rest ih =>
    obtain ⟨ha, hrest⟩ := List.forall_mem_cons.mp h
    exact Nat.add_le_add ha (ih hrest)

/-- Two measures that make up a third. -/
theorem tally_eq_add {g h : α → Nat} (hsum : ∀ a, f a = g a + h a) :
    tally f parts = tally g parts + tally h parts := by
  induction parts with
  | nil => rfl
  | cons a rest ih =>
    rw [tally_cons, tally_cons, tally_cons, ih, hsum]
    omega

/-- How often a value is in a list is its measure as an indicator. -/
theorem tally_count [DecidableEq α] (a : α) : tally (fun b => if b = a then 1 else 0) parts =
    parts.count a := by
  induction parts with
  | nil => rfl
  | cons b rest ih =>
    rw [tally_cons, ih, List.count_cons]
    by_cases hb : b = a
    · simp [hb, Nat.add_comm]
    · simp [hb]

theorem count_eraseIdx [DecidableEq α] (h : parts[i]? = some a) :
    (parts.eraseIdx i).count b + (if a = b then 1 else 0) = parts.count b := by
  rw [← tally_count, ← tally_count]
  exact tally_eraseIdx h

end Tally

end TgeCore.Library
