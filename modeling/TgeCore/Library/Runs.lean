import Mathlib.Data.List.Basic
import Mathlib.Data.List.Chain
import Mathlib.Data.List.TakeWhile

namespace TgeCore.Library
variable {α : Type*}

/-- The maximal runs of what is not blank: before each is a gap, which may be empty at the start
only, and after it a blank or the end. -/
inductive Runs (blank : α → Bool) : List α → List (List α) → Prop where
  | gap {gap : List α} (hgap : ∀ c ∈ gap, blank c = true) : Runs blank gap []
  | run {gap run rest : List α} {runs : List (List α)} (hgap : ∀ c ∈ gap, blank c = true) (hne : run ≠ [])
      (hrun : ∀ c ∈ run, blank c = false) (hrest : ∀ c ∈ rest.head?, blank c = true) (hruns : Runs blank rest runs) :
      Runs blank (gap ++ run ++ rest) (run :: runs)

/-- Pieces one after the other, each with the gap that follows it. -/
def joined (lead : List α) : List (List α × List α) → List α
  | [] => lead
  | (piece, gap) :: rest => lead ++ piece ++ joined gap rest

namespace Runs
variable {blank : α → Bool} {line lead : List α} {runs runs' : List (List α)} {c : α}

/-- A blank more before everything. -/
theorem cons_blank (hc : blank c = true) (h : Runs blank line runs) : Runs blank (c :: line) runs := by
  cases h with
  | gap hgap =>
    refine .gap fun d hd => ?_
    cases List.mem_cons.mp hd with
    | inl hfirst => rwa [hfirst]
    | inr hgap' => exact hgap d hgap'
  | run hgap hne hrun hrest hruns =>
    rw [← List.cons_append, ← List.cons_append]
    refine .run (fun d hd => ?_) hne hrun hrest hruns
    cases List.mem_cons.mp hd with
    | inl hfirst => rwa [hfirst]
    | inr hgap' => exact hgap d hgap'

/-- A run at the start, with a blank or nothing after it. -/
theorem cons_run {run rest : List α} (hne : run ≠ []) (hrun : ∀ c ∈ run, blank c = false)
    (hrest : ∀ c ∈ rest.head?, blank c = true) (h : Runs blank rest runs) : Runs blank (run ++ rest) (run :: runs) := by
  have hnone : ∀ c ∈ ([] : List α), blank c = true := fun _ hc => absurd hc List.not_mem_nil
  exact .run hnone hne hrun hrest h

theorem dropWhile_gap {gap rest : List α} (hgap : ∀ c ∈ gap, blank c = true) :
    (gap ++ rest).dropWhile blank = rest.dropWhile blank := List.dropWhile_append_of_pos hgap

/-- What a line's runs are from its first on. -/
theorem first (h : Runs blank line runs) :
    (line.dropWhile blank = [] ∧ runs = []) ∨ ∃ run rest runs', runs = run :: runs' ∧ Runs blank rest runs' ∧
      run ≠ [] ∧ run = (line.dropWhile blank).takeWhile (fun c => !blank c) ∧
      rest = (line.dropWhile blank).dropWhile (fun c => !blank c) := by
  cases h with
  | gap hgap => exact .inl ⟨List.dropWhile_eq_nil_iff.mpr hgap, rfl⟩
  | run hgap hne hrun hrest hruns =>
    rename_i gap run rest runs
    have hstart : (gap ++ run ++ rest).dropWhile blank = run ++ rest := by
      rw [List.append_assoc, dropWhile_gap hgap]
      cases run with
      | nil => exact absurd rfl hne
      | cons c run => exact List.dropWhile_cons_of_neg (by simp [hrun c List.mem_cons_self])
    have hkept : ∀ c ∈ run, (!blank c) = true := fun c hc => by simp [hrun c hc]
    refine .inr ⟨run, rest, runs, rfl, hruns, hne, ?_, ?_⟩
    · rw [hstart, List.takeWhile_append_of_pos hkept]
      cases rest with
      | nil => exact (List.append_nil run).symm
      | cons c rest => rw [List.takeWhile_cons_of_neg (by simp [hrest c rfl]), List.append_nil]
    · rw [hstart, List.dropWhile_append_of_pos hkept]
      cases rest with
      | nil => rfl
      | cons c rest => rw [List.dropWhile_cons_of_neg (by simp [hrest c rfl])]

/-- A line has its runs in one way only. -/
theorem unique (h : Runs blank line runs) (h' : Runs blank line runs') : runs = runs' := by
  induction runs generalizing line runs' with
  | nil =>
    rcases h.first with hnil | hcons
    · rcases h'.first with hnil' | hcons'
      · exact hnil'.2.symm
      · obtain ⟨run, rest, runs', -, -, hne, hrun, -⟩ := hcons'
        rw [hnil.1] at hrun
        exact absurd hrun hne
    · obtain ⟨run, rest, runs', heq, -⟩ := hcons
      cases heq
  | cons run runs ih =>
    rcases h.first with hnil | hcons
    · cases hnil.2
    · obtain ⟨run, rest, runs, heq, hrest, hne, hrun, hdrop⟩ := hcons
      cases heq
      rcases h'.first with hnil' | hcons'
      · rw [hnil'.1] at hrun
        exact absurd hrun hne
      · obtain ⟨run', rest', runs', rfl, hrest', -, hrun', hdrop'⟩ := hcons'
        rw [hrun, hrun', ih hrest (hdrop.trans hdrop'.symm ▸ hrest')]

/-- Pieces without blanks, with gaps between them that are not empty, are the runs of the line they make. -/
theorem of_joined {pieces : List (List α × List α)} (hlead : ∀ c ∈ lead, blank c = true)
    (hpieces : ∀ piece ∈ pieces, piece.1 ≠ [] ∧ ∀ c ∈ piece.1, blank c = false)
    (hgaps : ∀ piece ∈ pieces, ∀ c ∈ piece.2, blank c = true)
    (hapart : pieces.IsChain fun piece _ => piece.2 ≠ []) : Runs blank (joined lead pieces) (pieces.map Prod.fst) := by
  induction pieces generalizing lead with
  | nil => exact .gap hlead
  | cons piece pieces ih =>
    obtain ⟨hne, hrun⟩ := hpieces piece List.mem_cons_self
    have hgap := hgaps piece List.mem_cons_self
    have hrest := ih hgap (fun p hp => hpieces p (List.mem_cons_of_mem _ hp))
      (fun p hp => hgaps p (List.mem_cons_of_mem _ hp)) hapart.tail
    refine .run hlead hne hrun (fun c hc => ?_) hrest
    cases pieces with
    | nil => exact hgap c (List.mem_of_mem_head? hc)
    | cons next pieces =>
      have hnonempty : piece.2 ≠ [] := (List.isChain_cons_cons.mp hapart).1
      have hhead : (joined piece.2 (next :: pieces)).head? = piece.2.head? := by
        unfold joined
        rw [List.append_assoc, List.head?_append_of_ne_nil _ hnonempty]
      rw [hhead] at hc
      exact hgap c (List.mem_of_mem_head? hc)

end Runs

end TgeCore.Library
