import Mathlib.Data.List.Basic

namespace TgeCore.Library

variable {α : Type} {next next' : α → α} {last a : α} {nodes : List α}

/-- Following the links from a node passes these nodes, and then it ends. -/
def Chain (next : α → α) (last : α) : α → List α → Prop
  | a, [] => a = last
  | a, b :: rest => a = b ∧ b ≠ last ∧ Chain next last (next b) rest

/-- Only the links of the nodes passed matter. -/
theorem Chain.congr (h : ∀ b ∈ nodes, next b = next' b) (hc : Chain next last a nodes) :
    Chain next' last a nodes := by
  induction nodes generalizing a with
  | nil => exact hc
  | cons b rest ih =>
    obtain ⟨hb, hrest⟩ := List.forall_mem_cons.mp h
    obtain ⟨rfl, hlast, hc⟩ := hc
    refine ⟨rfl, hlast, ?_⟩
    rw [← hb]
    exact ih hrest hc

/-- A chain whose nodes are numbered, each linked to the one after it. -/
theorem Chain.of_links {f : Nat → α} {n : Nat} (hlast : ∀ j < n, f j ≠ last)
    (hnext : ∀ j < n, next (f j) = if j + 1 < n then f (j + 1) else last) (ha : 0 < n → a = f 0)
    (hnone : n = 0 → a = last) : Chain next last a ((List.range n).map f) := by
  have hfrom : ∀ k i, i + k = n →
      Chain next last (if i < n then f i else last) ((List.range' i k).map f) := by
    intro k
    induction k with
    | zero =>
      rintro i rfl
      exact if_neg (Nat.lt_irrefl _)
    | succ k ih =>
      intro i hi
      rw [if_pos (by omega), List.range'_succ, List.map_cons]
      refine ⟨rfl, hlast i (by omega), ?_⟩
      rw [hnext i (by omega)]
      exact ih (i + 1) (by omega)
  have hstart : a = if 0 < n then f 0 else last := by
    by_cases hn : 0 < n
    · rw [if_pos hn, ha hn]
    · rw [if_neg hn, hnone (by omega)]
  rw [hstart, List.range_eq_range']
  exact hfrom n 0 (by omega)

end TgeCore.Library
