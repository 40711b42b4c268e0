import Mathlib.Tactic.ByContra

namespace TgeCore.Library

/-- What is there of some resources and who holds them: each is held by one owner, which it fits. -/
structure HeldOnce {O R V : Type*} (holds : O → Option R) (fits : O → V → Prop) (there : R → Option V)
    (owners : List O) : Prop where
  fit : ∀ o ∈ owners, ∀ r, holds o = some r → ∃ v, there r = some v ∧ fits o v
  sole : ∀ (i j : Nat) (o o' : O) (r : R), owners[i]? = some o → owners[j]? = some o' →
    holds o = some r → holds o' = some r → i = j
  owned : ∀ r v, there r = some v → ∃ o ∈ owners, holds o = some r

namespace HeldOnce
variable {O R V : Type*} {holds : O → Option R} {fits : O → V → Prop} {there there' : R → Option V}
  {owners : List O} {i : Nat} {o o' : O} {r : R} {v : V}

theorem nil : HeldOnce holds fits (fun _ => none) [] where
  fit o ho := absurd ho List.not_mem_nil
  sole i j o o' r hi := by simp at hi
  owned r v hr := by cases hr

/-- A new owner holds nothing. -/
theorem append (h : HeldOnce holds fits there owners) (hnone : holds o = none) :
    HeldOnce holds fits there (owners ++ [o]) := by
  have hold : ∀ (i : Nat) (a : O) (r : R), (owners ++ [o])[i]? = some a → holds a = some r → owners[i]? = some a := by
    intro i a r hi ha
    rw [List.getElem?_append] at hi
    split at hi
    · exact hi
    · obtain rfl : a = o := by
        have hmem := List.mem_of_getElem? hi
        exact List.mem_singleton.mp hmem
      rw [hnone] at ha
      cases ha
  refine ⟨fun a ha r hr => ?_, fun i j a b r hi hj ha hb => ?_, fun r v hr => ?_⟩
  · rcases List.mem_append.mp ha with ha | ha
    · exact h.fit a ha r hr
    · obtain rfl := List.mem_singleton.mp ha
      rw [hnone] at hr
      cases hr
  · exact h.sole i j a b r (hold i a r hi ha) (hold j b r hj hb) ha hb
  · obtain ⟨a, ha, hheld⟩ := h.owned r v hr
    exact ⟨a, List.mem_append_left _ ha, hheld⟩

/-- Nobody else holds what an owner holds. -/
theorem other (h : HeldOnce holds fits there owners) (hi : owners[i]? = some o) (ho : holds o = some r)
    {j : Nat} {a : O} (hj : owners[j]? = some a) (hne : i ≠ j) : holds a ≠ some r :=
  fun ha => hne (h.sole i j o a r hi hj ho ha)

/-- What a list holds after one of its entries was replaced. -/
theorem mem_set_iff (hi : owners[i]? = some o) {a : O} :
    a ∈ owners.set i o' ↔ a = o' ∨ ∃ j, i ≠ j ∧ owners[j]? = some a := by
  have hlt : i < owners.length := by
    by_contra hge
    rw [List.getElem?_eq_none (Nat.not_lt.mp hge)] at hi
    cases hi
  rw [List.mem_iff_getElem?]
  constructor
  · intro h
    obtain ⟨j, hj⟩ := h
    rw [List.getElem?_set] at hj
    by_cases hij : i = j
    · rw [if_pos hij, if_pos hlt] at hj
      exact .inl (Option.some.inj hj).symm
    · rw [if_neg hij] at hj
      exact .inr ⟨j, hij, hj⟩
  · intro h
    rcases h with rfl | ⟨j, hne, hj⟩
    · exact ⟨i, by rw [List.getElem?_set, if_pos rfl, if_pos hlt]⟩
    · exact ⟨j, by rwa [List.getElem?_set, if_neg hne]⟩

/-- An owner goes from what it holds, if anything, to what it holds then, and nothing else changes. -/
theorem replace (h : HeldOnce holds fits there owners) (hi : owners[i]? = some o)
    (hframe : ∀ r, holds o ≠ some r → holds o' ≠ some r → there' r = there r)
    (hfit : ∀ r, holds o' = some r → ∃ v, there' r = some v ∧ fits o' v)
    (hnew : ∀ r, holds o' = some r → holds o = some r ∨ there r = none)
    (hgone : ∀ r, holds o = some r → holds o' ≠ some r → there' r = none) :
    HeldOnce holds fits there' (owners.set i o') := by
  have hothers : ∀ (j : Nat) (a : O) (r : R), i ≠ j → owners[j]? = some a → holds a = some r →
      holds o ≠ some r ∧ holds o' ≠ some r := by
    intro j a r hne hj ha
    have hold : holds o ≠ some r := fun ho => h.other hi ho hj hne ha
    refine ⟨hold, fun ho' => ?_⟩
    -- what is new to it was not there, so no other owner had it
    obtain ⟨v, hv, -⟩ := h.fit a (List.mem_of_getElem? hj) r ha
    rcases hnew r ho' with ho | hnone
    · exact hold ho
    · rw [hnone] at hv
      cases hv
  refine ⟨fun a ha r hr => ?_, fun j k a b r hj hk ha hb => ?_, fun r v hr => ?_⟩
  · rcases (mem_set_iff hi).mp ha with rfl | ⟨j, hne, hj⟩
    · exact hfit r hr
    · obtain ⟨ho, ho'⟩ := hothers j a r hne hj hr
      rw [hframe r ho ho']
      exact h.fit a (List.mem_of_getElem? hj) r hr
  · rw [List.getElem?_set] at hj hk
    by_cases hij : i = j
    · by_cases hik : i = k
      · exact hij.symm.trans hik
      · rw [if_neg hik] at hk
        rw [if_pos hij] at hj
        obtain rfl : o' = a := by
          split at hj
          · exact Option.some.inj hj
          · cases hj
        exact absurd ha (hothers k b r hik hk hb).2
    · rw [if_neg hij] at hj
      by_cases hik : i = k
      · rw [if_pos hik] at hk
        obtain rfl : o' = b := by
          split at hk
          · exact Option.some.inj hk
          · cases hk
        exact absurd hb (hothers j a r hij hj ha).2
      · rw [if_neg hik] at hk
        exact h.sole j k a b r hj hk ha hb
  · by_cases ho' : holds o' = some r
    · exact ⟨o', (mem_set_iff hi).mpr (.inl rfl), ho'⟩
    · have ho : holds o ≠ some r := fun ho => by
        rw [hgone r ho ho'] at hr
        cases hr
      rw [hframe r ho ho'] at hr
      obtain ⟨a, ha, hheld⟩ := h.owned r v hr
      obtain ⟨j, hj⟩ := List.mem_iff_getElem?.mp ha
      have hne : i ≠ j := by
        rintro rfl
        rw [hi] at hj
        exact ho (Option.some.inj hj ▸ hheld)
      exact ⟨a, (mem_set_iff hi).mpr (.inr ⟨j, hne, hj⟩), hheld⟩

section Moves
variable (h : HeldOnce holds fits there owners) (hi : owners[i]? = some o)
include h hi

/-- It holds nothing before and after. -/
theorem idle (ho : holds o = none) (ho' : holds o' = none) : HeldOnce holds fits there (owners.set i o') := by
  refine h.replace hi (fun _ _ _ => rfl) ?_ ?_ ?_
  · intro r hr
    rw [ho'] at hr
    cases hr
  · intro r hr
    rw [ho'] at hr
    cases hr
  · intro r hr
    rw [ho] at hr
    cases hr

/-- It keeps what it holds, which may change. -/
theorem keep (ho : holds o = some r) (ho' : holds o' = some r) (hframe : ∀ s, s ≠ r → there' s = there s)
    (hv : there' r = some v) (hfits : fits o' v) : HeldOnce holds fits there' (owners.set i o') := by
  refine h.replace hi (fun s hs _ => hframe s fun heq => hs (heq ▸ ho)) ?_ ?_ ?_
  · intro s hs
    obtain rfl := Option.some.inj (ho'.symm.trans hs)
    exact ⟨v, hv, hfits⟩
  · intro s hs
    obtain rfl := Option.some.inj (ho'.symm.trans hs)
    exact .inl ho
  · intro s hs hnot
    obtain rfl := Option.some.inj (ho.symm.trans hs)
    exact absurd ho' hnot

/-- It takes what was not there. -/
theorem take (ho : holds o = none) (ho' : holds o' = some r) (hnone : there r = none)
    (hframe : ∀ s, s ≠ r → there' s = there s) (hv : there' r = some v) (hfits : fits o' v) :
    HeldOnce holds fits there' (owners.set i o') := by
  refine h.replace hi (fun s _ hs => hframe s fun heq => hs (heq ▸ ho')) ?_ ?_ ?_
  · intro s hs
    obtain rfl := Option.some.inj (ho'.symm.trans hs)
    exact ⟨v, hv, hfits⟩
  · intro s hs
    obtain rfl := Option.some.inj (ho'.symm.trans hs)
    exact .inr hnone
  · intro s hs
    rw [ho] at hs
    cases hs

/-- It gives away what it holds, which is there no more. -/
theorem release (ho : holds o = some r) (ho' : holds o' = none) (hframe : ∀ s, s ≠ r → there' s = there s)
    (hv : there' r = none) : HeldOnce holds fits there' (owners.set i o') := by
  refine h.replace hi (fun s hs _ => hframe s fun heq => hs (heq ▸ ho)) ?_ ?_ ?_
  · intro s hs
    rw [ho'] at hs
    cases hs
  · intro s hs
    rw [ho'] at hs
    cases hs
  · intro s hs _
    obtain rfl := Option.some.inj (ho.symm.trans hs)
    exact hv

end Moves

end HeldOnce

end TgeCore.Library
