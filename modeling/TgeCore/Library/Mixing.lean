import Mathlib.Data.List.Nodup
import Mathlib.Data.List.Flatten

namespace TgeCore.Library

variable {α β ι : Type*} [DecidableEq β]

/-- A list put together from the lists of some sources. An element's label says which
source it is from, and each source's elements stand in their own order. -/
structure Mixes (label : α → β) (name : ι → Option β) (parts : ι → List α) (xs : List α) : Prop where
  each : ∀ i b, name i = some b → (xs.filter fun x => label x = b) = parts i
  only : ∀ x ∈ xs, ∃ i, name i = some (label x)

namespace Mixes
variable {label : α → β} {name name' : ι → Option β} {parts parts' : ι → List α} {xs ys : List α}

theorem nil : Mixes label name (fun _ => []) [] := by
  refine ⟨fun i b hi => rfl, ?_⟩
  intro x hx
  cases hx

theorem append (h : Mixes label name parts xs) (h' : Mixes label name parts' ys) :
    Mixes label name (fun i => parts i ++ parts' i) (xs ++ ys) := by
  refine ⟨fun i b hi => ?_, fun x hx => ?_⟩
  · rw [List.filter_append, h.each i b hi, h'.each i b hi]
  · cases List.mem_append.mp hx with
    | inl hx => exact h.only x hx
    | inr hx => exact h'.only x hx

theorem congr (h : Mixes label name parts xs) (hparts : ∀ i b, name i = some b → parts i = parts' i) :
    Mixes label name parts' xs := by
  refine ⟨fun i b hi => ?_, h.only⟩
  rw [h.each i b hi, hparts i b hi]

/-- Elements may change as long as their labels stay. -/
theorem map (h : Mixes label name parts xs) {f : α → α} (hf : ∀ x, label (f x) = label x) :
    Mixes label name (fun i => (parts i).map f) (xs.map f) := by
  refine ⟨fun i b hi => ?_, fun x hx => ?_⟩
  · rw [List.filter_map, ← h.each i b hi]
    simp only [Function.comp_def, hf]
  · obtain ⟨y, hy, rfl⟩ := List.mem_map.mp hx
    rw [hf]
    exact h.only y hy

/-- Sources that are new have given nothing yet. -/
theorem extend (h : Mixes label name parts xs) (hname : ∀ i b, name i = some b → name' i = some b)
    (hinj : ∀ i j b, name' i = some b → name' j = some b → i = j)
    (hnew : ∀ i, name i = none → parts i = []) : Mixes label name' parts xs := by
  refine ⟨fun i b hi => ?_, fun x hx => ?_⟩
  · cases hold : name i with
    | some c =>
      have hc := (hname i c hold).symm.trans hi
      cases hc
      exact h.each i b hold
    | none =>
      rw [hnew i hold, List.filter_eq_nil_iff]
      intro x hx hb
      obtain ⟨j, hj⟩ := h.only x hx
      have hji := hinj j i b ((hname j _ hj).trans (congrArg some (of_decide_eq_true hb))) hi
      rw [hji, hold] at hj
      cases hj
  · obtain ⟨i, hi⟩ := h.only x hx
    exact ⟨i, hname i _ hi⟩

/-- The lists of all sources, one source after the other. -/
theorem flatMap {order : List ι} (hnodup : order.Nodup) (horder : ∀ i, i ∈ order ↔ (name i).isSome)
    (hlabel : ∀ i b, name i = some b → ∀ x ∈ parts i, label x = b)
    (hinj : ∀ i j b, name i = some b → name j = some b → i = j) :
    Mixes label name parts (order.flatMap parts) := by
  refine ⟨fun i b hi => ?_, fun x hx => ?_⟩
  · have hown : ((parts i).filter fun x => label x = b) = parts i :=
      List.filter_eq_self.mpr fun x hx => decide_eq_true (hlabel i b hi x hx)
    have hother : ∀ j ∈ order, j ≠ i → ((parts j).filter fun x => label x = b) = [] := by
      intro j hj hne
      obtain ⟨c, hc⟩ := Option.isSome_iff_exists.mp ((horder j).mp hj)
      rw [List.filter_eq_nil_iff]
      intro x hx hb
      rw [hlabel j c hc x hx] at hb
      exact hne (hinj j i b (hc.trans (congrArg some (of_decide_eq_true hb))) hi)
    obtain ⟨before, after, rfl⟩ := List.append_of_mem ((horder i).mpr (by rw [hi]; rfl))
    obtain ⟨-, hafter, hapart⟩ := List.nodup_append.mp hnodup
    have hbefore : ((before.flatMap parts).filter fun x => label x = b) = [] := by
      rw [List.filter_flatMap, List.flatMap_eq_nil_iff]
      intro j hj
      exact hother j (List.mem_append_left _ hj) (hapart j hj i List.mem_cons_self)
    have hrest : ((after.flatMap parts).filter fun x => label x = b) = [] := by
      rw [List.filter_flatMap, List.flatMap_eq_nil_iff]
      intro j hj
      refine hother j (List.mem_append_right _ (List.mem_cons_of_mem _ hj)) ?_
      rintro rfl
      exact (List.nodup_cons.mp hafter).1 hj
    rw [List.flatMap_append, List.flatMap_cons, List.filter_append, List.filter_append, hbefore, hown, hrest,
      List.nil_append, List.append_nil]
  · obtain ⟨i, hi, hmem⟩ := List.mem_flatMap.mp hx
    obtain ⟨b, hb⟩ := Option.isSome_iff_exists.mp ((horder i).mp hi)
    exact ⟨i, hb.trans (congrArg some (hlabel i b hb x hmem).symm)⟩

/-- A stable sort keeps each source's order where it is sorted already. -/
theorem mergeSort (h : Mixes label name parts xs) {le : α → α → Bool}
    (htrans : ∀ a b c, le a b → le b c → le a c) (htotal : ∀ a b, le a b || le b a)
    (hsorted : ∀ i b, name i = some b → (parts i).Pairwise fun x y => le x y) :
    Mixes label name parts (xs.mergeSort le) := by
  refine ⟨fun i b hi => ?_, fun x hx => h.only x (List.mem_mergeSort.mp hx)⟩
  have hpart := h.each i b hi
  have hkept : List.Sublist (parts i) (xs.mergeSort le) := by
    refine List.sublist_mergeSort htrans htotal (hsorted i b hi) ?_
    rw [← hpart]
    exact List.filter_sublist
  have hself : ((parts i).filter fun x => label x = b) = parts i := by
    rw [← hpart, List.filter_filter]
    simp only [Bool.and_self]
  have hsub := hkept.filter fun x => decide (label x = b)
  have hlength := ((List.mergeSort_perm xs le).filter fun x => decide (label x = b)).length_eq
  rw [hself] at hsub
  refine (hsub.eq_of_length ?_).symm
  rw [hlength, hpart]

end Mixes

end TgeCore.Library
