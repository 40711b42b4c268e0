import Mathlib.Data.List.DropRight

namespace TgeCore.Library
variable {α : Type} {p : α → Bool} {c : α} {left text right : List α}

/-- A text without what its ends have of a kind. -/
def trim (p : α → Bool) (text : List α) : List α := (text.dropWhile p).rdropWhile p

/-- A text whose ends have nothing of a kind. -/
structure Bare (p : α → Bool) (text : List α) : Prop where
  head : ∀ c ∈ text.head?, p c = false
  last : ∀ c ∈ text.getLast?, p c = false

theorem trim_eq_nil (h : ∀ c ∈ text, p c = true) : trim p text = [] := by
  rw [trim, List.dropWhile_eq_nil_iff.mpr h, List.rdropWhile_nil]

theorem trim_left (h : ∀ c ∈ left, p c = true) : trim p (left ++ text) = trim p text := by
  rw [trim, trim, List.dropWhile_append_of_pos h]

theorem rdropWhile_append (h : ∀ c ∈ right, p c = true) :
    (text ++ right).rdropWhile p = text.rdropWhile p := by
  rw [List.rdropWhile, List.rdropWhile, List.reverse_append,
    List.dropWhile_append_of_pos fun c hc => h c (List.mem_reverse.mp hc)]

/-- What stands before an element of another kind is kept from being dropped. -/
theorem rdropWhile_append_cons (hc : p c = false) :
    (left ++ c :: right).rdropWhile p = left ++ c :: right.rdropWhile p := by
  induction right using List.reverseRecOn with
  | nil => exact List.rdropWhile_concat_neg p left c (by simp [hc])
  | append_singleton right d ih =>
    have hsplit : left ++ c :: (right ++ [d]) = (left ++ c :: right) ++ [d] := by simp
    rw [hsplit]
    by_cases hd : p d = true
    · rw [List.rdropWhile_concat_pos _ _ _ hd, List.rdropWhile_concat_pos _ _ _ hd, ih]
    · rw [List.rdropWhile_concat_neg _ _ _ hd, List.rdropWhile_concat_neg _ _ _ hd, hsplit]

theorem trim_right (h : ∀ c ∈ right, p c = true) : trim p (text ++ right) = trim p text := by
  by_cases hall : ∀ c ∈ text, p c = true
  · rw [trim_eq_nil hall, trim_eq_nil]
    intro c hc
    rcases List.mem_append.mp hc with hc | hc
    · exact hall c hc
    · exact h c hc
  · have hsome : (text.dropWhile p).isEmpty = false := by
      rw [List.isEmpty_eq_false_iff]
      exact fun hnil => hall (List.dropWhile_eq_nil_iff.mp hnil)
    rw [trim, List.dropWhile_append, hsome, trim]
    exact rdropWhile_append h

/-- The kept text begins with an element of another kind, and what follows it ends with one. -/
theorem trim_cons (hc : p c = false) : trim p (c :: text) = c :: text.rdropWhile p := by
  have hkept : ([] ++ c :: text).rdropWhile p = [] ++ c :: text.rdropWhile p := rdropWhile_append_cons hc
  rw [trim, List.dropWhile_cons_of_neg (by simp [hc])]
  exact hkept

theorem trim_rdropWhile (text : List α) : trim p (text.rdropWhile p) = trim p text := by
  have hdropped : ∀ c ∈ text.rtakeWhile p, p c = true := fun c hc => List.mem_rtakeWhile_imp hc
  have hsplit : trim p (text.rdropWhile p ++ text.rtakeWhile p) = trim p (text.rdropWhile p) :=
    trim_right hdropped
  rw [List.rdropWhile_append_rtakeWhile] at hsplit
  exact hsplit.symm

theorem trim_bare (h : Bare p text) : trim p text = text := by
  cases text with
  | nil => rfl
  | cons c text =>
    have hhead : p c = false := h.head c rfl
    rw [trim, List.dropWhile_cons_of_neg (by simp [hhead]), List.rdropWhile_eq_self_iff]
    intro hne
    have hlast := h.last _ (List.getLast_mem_getLast? hne)
    simp [hlast]

theorem mem_trim (hmem : c ∈ text) (hc : p c = false) : c ∈ trim p text := by
  obtain ⟨before, after, rfl⟩ := List.append_of_mem hmem
  have hkept : c ∈ (before ++ c :: after).dropWhile p := by
    rw [List.dropWhile_append]
    split
    · rw [List.dropWhile_cons_of_neg (by simp [hc])]
      exact List.mem_cons_self
    · exact List.mem_append_right _ List.mem_cons_self
  obtain ⟨first, rest, hsplit⟩ := List.append_of_mem hkept
  rw [trim, hsplit, rdropWhile_append_cons hc]
  exact List.mem_append_right _ List.mem_cons_self

end TgeCore.Library
