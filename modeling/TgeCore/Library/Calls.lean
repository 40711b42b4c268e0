import TgeCore.Library.Machine
import TgeCore.Library.Tally

namespace TgeCore.Library
namespace Machine
variable {σ ι ω α : Type*} {M : Machine σ ι ω} {s t : σ} {is : List ι} {os : List ω}

theorem run_length (hr : M.run s is = some (t, os)) : os.length = is.length := by
  induction is generalizing s os with
  | nil =>
    obtain ⟨rfl, rfl⟩ : s = t ∧ [] = os := by simpa [run] using hr
    rfl
  | cons i is ih =>
    obtain ⟨s', o, os', -, hrest, rfl⟩ := run_cons_eq_some.mp hr
    rw [List.length_cons, List.length_cons, ih hrest]

/-- The inputs before a step are as many as the outputs before its own. -/
theorem run_at {before after : List ω} {o : ω} (hr : M.run s is = some (t, before ++ o :: after)) :
    ∃ i u u', M.run s (is.take before.length) = some (u, before) ∧ M.step u i = some (u', o) := by
  obtain ⟨is₁, i, is₂, u, u', rfl, hbefore, hst, -⟩ := run_splits hr
  refine ⟨i, u, u', ?_, hst⟩
  rwa [run_length hbefore, List.take_left]

/-- What every step shows of its input a run shows of all of them. -/
theorem run_forall₂ {R : ι → ω → Prop} (hstep : ∀ s i t o, M.step s i = some (t, o) → R i o)
    (hr : M.run s is = some (t, os)) : List.Forall₂ R is os := by
  induction is generalizing s os with
  | nil =>
    obtain ⟨rfl, rfl⟩ : s = t ∧ [] = os := by simpa [run] using hr
    exact .nil
  | cons i is ih =>
    obtain ⟨s', o, os', hone, hrest, rfl⟩ := run_cons_eq_some.mp hr
    exact .cons (hstep s i s' o hone) (ih hrest)

/-- What is asked for by the inputs is given in the order of the asking, each thing by one
step, and the rest of it is still owed. -/
theorem run_owes_zip {asked : ι → List α} {given : ι → ω → List α} (owed : σ → List α)
    (hstep : ∀ s i t o, M.step s i = some (t, o) → owed s ++ asked i = given i o ++ owed t)
    (hr : M.run s is = some (t, os)) :
    owed s ++ is.flatMap asked = (List.zipWith given is os).flatten ++ owed t := by
  induction is generalizing s os with
  | nil =>
    obtain ⟨rfl, rfl⟩ : s = t ∧ [] = os := by simpa [run] using hr
    simp
  | cons i is ih =>
    obtain ⟨s', o, os', hone, hrest, rfl⟩ := run_cons_eq_some.mp hr
    rw [List.flatMap_cons, List.zipWith_cons_cons, List.flatten_cons, ← List.append_assoc, hstep s i s' o hone,
      List.append_assoc, ih hrest, List.append_assoc]

/-- The same where the outputs alone tell what is given. -/
theorem run_owes {asked : ι → List α} {given : ω → List α} (owed : σ → List α)
    (hstep : ∀ s i t o, M.step s i = some (t, o) → owed s ++ asked i = given o ++ owed t)
    (hr : M.run s is = some (t, os)) : owed s ++ is.flatMap asked = os.flatMap given ++ owed t := by
  have hgiven : (List.zipWith (fun _ o => given o) is os).flatten = os.flatMap given := by
    have hsnd : (List.zip is os).map Prod.snd = os := List.map_snd_zip (Nat.le_of_eq (run_length hr))
    rw [List.flatMap_def, ← List.map_uncurry_zip_eq_zipWith]
    conv_rhs => rw [← hsnd, List.map_map]
    rfl
  rw [← hgiven]
  exact run_owes_zip owed hstep hr

/-- As many as are asked for by the inputs are given or still owed. -/
theorem run_owes_tally {asked : ι → Nat} {given : ω → Nat} (owed : σ → Nat)
    (hstep : ∀ s i t o, M.step s i = some (t, o) → owed s + asked i = given o + owed t)
    (hr : M.run s is = some (t, os)) : owed s + tally asked is = tally given os + owed t := by
  induction is generalizing s os with
  | nil =>
    obtain ⟨rfl, rfl⟩ : s = t ∧ [] = os := by simpa [run] using hr
    simp
  | cons i is ih =>
    obtain ⟨s', o, os', hone, hrest, rfl⟩ := run_cons_eq_some.mp hr
    have hnow := hstep s i s' o hone
    have hlater := ih hrest
    rw [tally_cons, tally_cons]
    omega

/-- What the steps of a run come to, each told by its input and the state before it. -/
def gathered (M : Machine σ ι ω) (f : σ → ι → List α) : σ → List ι → List α
  | _, [] => []
  | s, i :: is => f s i ++ ((M.step s i).map fun next => M.gathered f next.1 is).getD []

/-- What the outputs give, where each step gives what its input and the state before it tell. -/
theorem run_gathered {f : σ → ι → List α} {given : ω → List α} {P : ι → Prop} (Inv : σ → Prop)
    (hstep : ∀ s i t o, Inv s → P i → M.step s i = some (t, o) → Inv t ∧ given o = f s i) (hs : Inv s)
    (hp : ∀ i ∈ is, P i) (hr : M.run s is = some (t, os)) : os.flatMap given = M.gathered f s is := by
  induction is generalizing s os with
  | nil =>
    obtain ⟨rfl, rfl⟩ : s = t ∧ [] = os := by simpa [run] using hr
    rfl
  | cons i is ih =>
    obtain ⟨s', o, os', hone, hrest, rfl⟩ := run_cons_eq_some.mp hr
    obtain ⟨hs', hgiven⟩ := hstep s i s' o hs (hp i List.mem_cons_self) hone
    rw [List.flatMap_cons, hgiven, ih hs' (fun j hj => hp j (List.mem_cons_of_mem i hj)) hrest, gathered, hone,
      Option.map_some, Option.getD_some]

end Machine
end TgeCore.Library
