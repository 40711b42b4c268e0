import Mathlib.Data.List.Infix

namespace TgeCore.Library.Text
variable {α : Type*} [DecidableEq α] {pattern text pre rest : List α} {i n : Nat}

/-- The position of a pattern's first occurrence. -/
def find (pattern : List α) : List α → Option Nat
  | [] => if pattern = [] then some 0 else none
  | c :: text => if pattern <+: c :: text then some 0 else (find pattern text).map (· + 1)

/-- The same from a position on, as a position in the whole text. -/
def findFrom (pattern text : List α) (start : Nat) : Option Nat :=
  (find pattern (text.drop start)).map (· + start)

/-- No occurrence of the pattern begins in a text that is followed by another. -/
def Free (pattern text rest : List α) : Prop := ∀ i < text.length, ¬ pattern <+: (text ++ rest).drop i

instance : Decidable (Free pattern text rest) := inferInstanceAs (Decidable (∀ i < text.length, _))

omit [DecidableEq α] in
theorem free_cons {c : α} : Free pattern (c :: text) rest ↔
    ¬ pattern <+: c :: (text ++ rest) ∧ Free pattern text rest := by
  constructor
  · intro h
    exact ⟨by simpa using h 0 (by simp), fun i hi => by simpa using h (i + 1) (by simpa using hi)⟩
  · rintro ⟨hhere, hlater⟩ i hi
    cases i with
    | zero => simpa using hhere
    | succ i => simpa using hlater i (by simpa using hi)

/-- What begins with the pattern is where it is found first, if it does not begin before. -/
theorem find_free (hfree : Free pattern text (pattern ++ rest)) :
    find pattern (text ++ (pattern ++ rest)) = some text.length := by
  induction text with
  | nil =>
    cases h : pattern ++ rest with
    | nil => simp [find, (List.append_eq_nil_iff.mp h).1]
    | cons c later =>
      have hpre : pattern <+: c :: later := ⟨rest, h⟩
      simp [find, hpre]
  | cons c text ih =>
    obtain ⟨hhere, hlater⟩ := free_cons.mp hfree
    simp [find, hhere, ih hlater]

/-- A text in which the pattern never begins. -/
theorem find_none (hne : pattern ≠ []) (hfree : Free pattern text []) : find pattern text = none := by
  induction text with
  | nil => simp [find, hne]
  | cons c text ih =>
    obtain ⟨hhere, hlater⟩ := free_cons.mp hfree
    rw [List.append_nil] at hhere
    simp [find, hhere, ih hlater]

theorem findFrom_append (pattern pre text : List α) :
    findFrom pattern (pre ++ text) pre.length = (find pattern text).map (· + pre.length) := by
  rw [findFrom, List.drop_left]

/-- What is found is there. -/
theorem find_prefix (h : find pattern text = some i) : pattern <+: text.drop i ∧ i ≤ text.length := by
  induction text generalizing i with
  | nil =>
    simp only [find] at h
    split at h
    · rename_i hempty
      obtain rfl := Option.some.inj h
      simp [hempty]
    · cases h
  | cons c text ih =>
    simp only [find] at h
    split at h
    · rename_i hhere
      obtain rfl := Option.some.inj h
      simpa using hhere
    · obtain ⟨j, hj, rfl⟩ := Option.map_eq_some_iff.mp h
      obtain ⟨hpre, hle⟩ := ih hj
      exact ⟨by simpa using hpre, by simpa using hle⟩

/-- An occurrence from a position on stands between that position and the end. -/
theorem findFrom_bounds (h : findFrom pattern text n = some i) :
    n ≤ i ∧ (pattern ≠ [] → i + pattern.length ≤ text.length) := by
  obtain ⟨j, hj, rfl⟩ := Option.map_eq_some_iff.mp h
  obtain ⟨hpre, hle⟩ := find_prefix hj
  refine ⟨Nat.le_add_left n j, fun hne => ?_⟩
  have hlength := hpre.length_le
  have hpos := List.length_pos_iff.mpr hne
  simp only [List.length_drop] at hlength
  omega

omit [DecidableEq α] in
/-- A pattern does not begin among elements that differ from its first one. -/
theorem free_of_not_mem {c : α} {later : List α} (h : c ∉ text) : Free (c :: later) text rest := by
  intro i hi hpre
  rw [List.drop_append_of_le_length (by omega), List.drop_eq_getElem_cons hi, List.cons_append,
    List.cons_prefix_cons] at hpre
  exact h (hpre.1 ▸ List.getElem_mem hi)

end TgeCore.Library.Text
