import Mathlib.Data.List.Basic

namespace TgeCore.Library.Buffer
variable {α : Type*}

/-- What is in a buffer from a place on. Outside of the buffer there is nothing to read. -/
def load (buffer : List α) (place count : Nat) : Option (List α) :=
  if place + count ≤ buffer.length then some ((buffer.drop place).take count) else none

/-- Items in place of what was there. Outside of the buffer there is no place for any. -/
def store (buffer : List α) (place : Nat) (items : List α) : Option (List α) :=
  if place + items.length ≤ buffer.length then
    some (buffer.take place ++ items ++ buffer.drop (place + items.length))
  else none

def resize (buffer : List α) (length : Nat) (fill : α) : List α :=
  buffer.take length ++ List.replicate (length - buffer.length) fill

variable {buffer buffer' items : List α} {place count : Nat}

theorem load_eq_some_iff : load buffer place count = some items ↔
    place + count ≤ buffer.length ∧ (buffer.drop place).take count = items := by
  unfold load
  split
  · rename_i hfits
    simp only [Option.some.injEq, hfits, true_and]
  · rename_i hover
    simp only [reduceCtorEq, hover, false_and]

/-- What stands between two parts of a buffer is read from where the first of them ends. -/
theorem load_middle {front back : List α} (h : buffer = front ++ (items ++ back)) (hplace : place = front.length)
    (hcount : count = items.length) : load buffer place count = some items := by
  subst h hplace hcount
  refine load_eq_some_iff.mpr ⟨by simp only [List.length_append]; omega, ?_⟩
  rw [List.drop_left, List.take_left]

theorem store_of_le (h : place + items.length ≤ buffer.length) : store buffer place items =
    some (buffer.take place ++ items ++ buffer.drop (place + items.length)) := if_pos h

theorem length_store (h : store buffer place items = some buffer') : buffer'.length = buffer.length := by
  unfold store at h
  split at h
  · rename_i hfits
    cases h
    simp only [List.length_append, List.length_take, List.length_drop]
    omega
  · cases h

/-- What is stored goes on where what is before it ends. -/
theorem take_store (h : store buffer place items = some buffer') :
    buffer'.take (place + items.length) = buffer.take place ++ items := by
  unfold store at h
  split at h
  · rename_i hfits
    cases h
    have hlength : place + items.length = (buffer.take place ++ items).length := by
      rw [List.length_append, List.length_take]
      omega
    rw [hlength, List.take_left]
  · cases h

theorem length_resize (buffer : List α) (length : Nat) (fill : α) : (resize buffer length fill).length = length := by
  unfold resize
  rw [List.length_append, List.length_take, List.length_replicate]
  omega

theorem resize_of_le (h : count ≤ buffer.length) (fill : α) : resize buffer count fill = buffer.take count := by
  unfold resize
  rw [Nat.sub_eq_zero_of_le h, List.replicate_zero, List.append_nil]

/-- A buffer grows by what is stored at its end. -/
theorem store_resize (buffer items : List α) (fill : α) :
    store (resize buffer (buffer.length + items.length) fill) buffer.length items = some (buffer ++ items) := by
  have hgrown : resize buffer (buffer.length + items.length) fill = buffer ++ List.replicate items.length fill := by
    unfold resize
    rw [Nat.add_sub_cancel_left, List.take_of_length_le (Nat.le_add_right _ _)]
  have hend : (buffer ++ List.replicate items.length fill).drop (buffer.length + items.length) = [] :=
    List.drop_eq_nil_of_le (by simp)
  rw [store_of_le (Nat.le_of_eq (length_resize ..).symm), hgrown, hend, List.take_left, List.append_nil]

end TgeCore.Library.Buffer
