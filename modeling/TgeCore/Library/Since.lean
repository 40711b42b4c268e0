import Mathlib.Data.List.Induction

namespace TgeCore.Library

/-- Something in a history begins, and nothing after it ends it. -/
def Since {ω : Type*} (begins ends : ω → Prop) (history : List ω) : Prop :=
  ∃ before o after, history = before ++ o :: after ∧ begins o ∧ ∀ p ∈ after, ¬ ends p

section Since
variable {ω : Type*} {begins ends : ω → Prop} {history : List ω} {o : ω}

theorem not_since_nil : ¬ Since begins ends [] := by
  intro h
  obtain ⟨before, o, after, heq, -⟩ := h
  cases before with
  | nil => cases heq
  | cons p before => cases heq

theorem since_concat : Since begins ends (history ++ [o]) ↔ begins o ∨ Since begins ends history ∧ ¬ ends o := by
  constructor
  · intro h
    obtain ⟨before, p, after, heq, hbegins, hends⟩ := h
    rcases after.eq_nil_or_concat with rfl | ⟨after, q, rfl⟩
    · obtain ⟨-, hlast⟩ := List.append_inj' heq rfl
      obtain rfl := (List.cons.inj hlast).1
      exact .inl hbegins
    · rw [List.concat_eq_append] at heq hends
      rw [← List.cons_append, ← List.append_assoc] at heq
      obtain ⟨rfl, hlast⟩ := List.append_inj' heq rfl
      obtain rfl := (List.cons.inj hlast).1
      refine .inr ⟨⟨before, p, after, rfl, hbegins, fun r hr => hends r ?_⟩, hends o ?_⟩
      · exact List.mem_append_left _ hr
      · exact List.mem_append_right _ (List.mem_singleton_self o)
  · rintro (hbegins | ⟨⟨before, p, after, rfl, hbegins, hends⟩, ho⟩)
    · exact ⟨history, o, [], rfl, hbegins, by simp⟩
    · refine ⟨before, p, after ++ [o], by simp, hbegins, fun r hr => ?_⟩
      rcases List.mem_append.mp hr with hr | hr
      · exact hends r hr
      · obtain rfl := List.mem_singleton.mp hr
        exact ho

end Since

end TgeCore.Library
