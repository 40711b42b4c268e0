import Mathlib.Data.List.Basic
import Mathlib.Logic.Function.Basic

namespace TgeCore.Library

/-- Events that are set until they are reset. Some reset themselves in the wait that sees them. -/
structure Signals (K : Type*) where
  isSet : K → Bool
  resetsItself : K → Bool

namespace Signals
variable {K : Type*} [DecidableEq K] {s : Signals K} {k other : K}

def set (s : Signals K) (k : K) : Signals K := { s with isSet := Function.update s.isSet k true }

def reset (s : Signals K) (k : K) : Signals K := { s with isSet := Function.update s.isSet k false }

/-- What a wait leaves that returns for an event. -/
def seen (s : Signals K) (k : K) : Signals K := if s.resetsItself k then s.reset k else s

/-- Which of the events a wait for any of them returns for: the first that is set. -/
def firstSet (s : Signals K) (ks : List K) : Option Nat := ks.findIdx? s.isSet

@[simp] theorem set_resetsItself : (s.set k).resetsItself = s.resetsItself := rfl

@[simp] theorem reset_resetsItself : (s.reset k).resetsItself = s.resetsItself := rfl

@[simp] theorem set_isSet : (s.set k).isSet k = true := Function.update_self ..

theorem set_isSet_of_ne (h : other ≠ k) : (s.set k).isSet other = s.isSet other := Function.update_of_ne h ..

theorem isSet_set (h : s.isSet other = true) : (s.set k).isSet other = true := by
  by_cases heq : other = k
  · rw [heq, set_isSet]
  · rwa [set_isSet_of_ne heq]

theorem reset_isSet_of_ne (h : other ≠ k) : (s.reset k).isSet other = s.isSet other := Function.update_of_ne h ..

@[simp] theorem seen_resetsItself : (s.seen k).resetsItself = s.resetsItself := by
  unfold seen
  split <;> rfl

theorem seen_isSet_of_ne (h : other ≠ k) : (s.seen k).isSet other = s.isSet other := by
  unfold seen
  split
  · exact reset_isSet_of_ne h
  · rfl

omit [DecidableEq K] in
/-- A wait for any of some events returns for one that is set. -/
theorem isSet_of_firstSet {ks : List K} {index : Nat} (h : s.firstSet ks = some index) (hk : ks[index]? = some k) :
    s.isSet k = true := by
  obtain ⟨hindex, hset, -⟩ := List.findIdx?_eq_some_iff_getElem.mp h
  obtain ⟨_, rfl⟩ := List.getElem?_eq_some_iff.mp hk
  exact hset

omit [DecidableEq K] in
/-- A wait for any of some events goes on exactly while none of them is set. -/
theorem firstSet_eq_none_iff {ks : List K} : s.firstSet ks = none ↔ ∀ k ∈ ks, s.isSet k = false := by
  simp [firstSet, List.findIdx?_eq_none_iff]

end Signals

end TgeCore.Library
