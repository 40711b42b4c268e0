import Mathlib.Data.List.Perm.Basic
import TgeCore.Library.Machine

namespace TgeCore.Library
namespace Machine
variable {σ ι ω α : Type*} {M : Machine σ ι ω}

/-- What a machine holds, what comes in and what goes out add up at one step, but for what is lost. -/
def Balances (held : σ → List α) (came went : ω → List α) (s t : σ) (o : ω) (lost : List α) : Prop :=
  (held s ++ came o).Perm (went o ++ held t ++ lost)

/-- The books of a run: all that came in went out, is held or was lost, and nothing was lost
exactly if every step met the condition under which it loses nothing. -/
theorem run_balances {held : σ → List α} {came went : ω → List α} {P : σ → ι → Prop} (Inv : σ → Prop)
    (hstep : ∀ s i t o, Inv s → M.step s i = some (t, o) →
      Inv t ∧ ∃ lost, Balances held came went s t o lost ∧ (lost = [] ↔ P s i))
    {s t : σ} {is : List ι} {os : List ω} (hs : Inv s) (hr : M.run s is = some (t, os)) :
    Inv t ∧ ∃ lost, (held s ++ os.flatMap came).Perm (os.flatMap went ++ held t ++ lost) ∧
      (lost = [] ↔ M.Along P s is) := by
  induction is generalizing s os with
  | nil =>
    obtain ⟨rfl, rfl⟩ : s = t ∧ [] = os := by simpa [run] using hr
    refine ⟨hs, [], ?_, iff_of_true rfl trivial⟩
    rw [List.append_nil]
    exact List.perm_append_comm
  | cons i is ih =>
    obtain ⟨s', o, os', hone, hrest, rfl⟩ := run_cons_eq_some.mp hr
    obtain ⟨hs', lost, hbalance, hlost⟩ := hstep s i s' o hs hone
    obtain ⟨ht, lost', hlater, hlost'⟩ := ih hs' hrest
    refine ⟨ht, lost ++ lost', ?_, ?_⟩
    · have hfirst : (held s ++ (came o ++ os'.flatMap came)).Perm (went o ++ (held s' ++ os'.flatMap came) ++ lost) := by
        rw [← List.append_assoc]
        refine (hbalance.append_right _).trans ?_
        simp only [List.append_assoc]
        exact (List.perm_append_comm.append_left _).append_left _
      have hlast : (went o ++ (os'.flatMap went ++ held t ++ lost') ++ lost).Perm
          (went o ++ os'.flatMap went ++ held t ++ (lost ++ lost')) := by
        simp only [List.append_assoc]
        exact ((List.perm_append_comm.append_left _).append_left _).append_left _
      rw [List.flatMap_cons, List.flatMap_cons]
      exact hfirst.trans (((hlater.append_left _).append_right _).trans hlast)
    · rw [List.append_eq_nil_iff, hlost, hlost']
      simp only [Along, hone, Option.mem_some_iff, forall_eq']

end Machine
end TgeCore.Library
