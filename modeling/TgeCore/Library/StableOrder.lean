import Mathlib.Logic.Relation
import Mathlib.Order.WellFounded
import Mathlib.Data.List.Nodup
import Mathlib.Data.Set.Finite.List

namespace TgeCore.Library.StableOrder

variable {α : Type*} (needs : α → α → Prop)

/-- One need between two listed elements. Needs that leave the list are not edges. -/
def Edge (xs : List α) (x y : α) : Prop := x ∈ xs ∧ y ∈ xs ∧ needs x y

/-- No listed element needs itself through a chain of listed elements. -/
def Acyclic (xs : List α) : Prop := ∀ x, ¬ Relation.TransGen (Edge needs xs) x x

/-- A chain of needs leads from the element to a cycle, which it may be on itself. -/
def LeadsToCycle (xs : List α) (x : α) : Prop :=
  ∃ y, Relation.ReflTransGen (Edge needs xs) x y ∧ Relation.TransGen (Edge needs xs) y y

/-- An unplaced element whose listed needs are all placed. -/
def Ready (xs placed : List α) (x : α) : Prop :=
  x ∉ placed ∧ ∀ y ∈ xs, needs x y → y ∈ placed

instance [DecidableEq α] [DecidableRel needs] (xs placed : List α) :
    DecidablePred (Ready needs xs placed) :=
  fun _ => inferInstanceAs (Decidable (_ ∧ _))

/-- The ready element listed first, which is the one a stable order places next. -/
def next? [DecidableEq α] [DecidableRel needs] (xs placed : List α) : Option α :=
  xs.find? (fun x => decide (Ready needs xs placed x))

/-- At every position the element placed is the first ready one. -/
def Greedy [DecidableEq α] [DecidableRel needs] (xs order : List α) : Prop :=
  ∀ pre x post, order = pre ++ x :: post → next? needs xs pre = some x

/-- Every listed need of an element stands before it. -/
def NeedsFirst (xs order : List α) : Prop :=
  ∀ pre x post, order = pre ++ x :: post → ∀ y ∈ xs, needs x y → y ∈ pre

variable {needs} {xs order placed : List α} {x : α}

/-- Placing one more listed element repeats none and stays in the list. -/
theorem placed_snoc (hn : placed.Nodup) (hs : ∀ y ∈ placed, y ∈ xs) (hx : x ∈ xs) (hnew : x ∉ placed) :
    (placed ++ [x]).Nodup ∧ ∀ y ∈ placed ++ [x], y ∈ xs := by
  constructor
  · rw [← List.concat_eq_append]
    exact List.Nodup.concat hnew hn
  · intro y hy
    rcases List.mem_append.mp hy with hy | hy
    · exact hs y hy
    · rw [List.mem_singleton.mp hy]
      exact hx

/-- An element of a list without repeats stands nowhere else in it. -/
theorem not_mem_around {pre post : List α} (h : (pre ++ x :: post).Nodup) : x ∉ pre ∧ x ∉ post := by
  have hnot := (List.nodup_cons.mp (List.nodup_middle.mp h)).1
  exact ⟨fun hpre => hnot (List.mem_append_left _ hpre), fun hpost => hnot (List.mem_append_right _ hpost)⟩

/-- A placement is never stuck on an element that leads to no cycle: following
unplaced needs from there must end, since the list is finite and no chain returns. -/
theorem exists_ready_of_not_leads (hn : ¬ LeadsToCycle needs xs x) (hx : x ∈ xs) (hp : x ∉ placed) :
    ∃ y ∈ xs, Ready needs xs placed y := by
  let Reached := {y // y ∈ xs ∧ Relation.ReflTransGen (Edge needs xs) x y}
  let chain : Reached → Reached → Prop := fun a b => Relation.TransGen (Edge needs xs) b.1 a.1
  have : IsTrans Reached chain := ⟨fun _ _ _ hab hbc => hbc.trans hab⟩
  have : Std.Irrefl chain := ⟨fun a h => hn ⟨a.1, a.2.2, h⟩⟩
  have : Finite Reached := (List.finite_toSet xs).subset fun y hy => hy.1
  have wf : WellFounded chain := Finite.wellFounded_of_trans_of_irrefl chain
  obtain ⟨m, hm, hleast⟩ := wf.has_min {y | y.1 ∉ placed} ⟨⟨x, hx, .refl⟩, hp⟩
  refine ⟨m.1, m.2.1, hm, ?_⟩
  intro y hy hneeds
  by_contra hyp
  have hedge : Edge needs xs m.1 y := ⟨m.2.1, hy, hneeds⟩
  exact hleast ⟨y, hy, m.2.2.tail hedge⟩ hyp (.single hedge)

/-- An unfinished placement of an acyclic list never gets stuck. -/
theorem exists_ready (ha : Acyclic needs xs) (hx : x ∈ xs) (hp : x ∉ placed) :
    ∃ y ∈ xs, Ready needs xs placed y :=
  exists_ready_of_not_leads (fun ⟨y, _, hcycle⟩ => ha y hcycle) hx hp

theorem NeedsFirst.of_append {pre post : List α} (h : NeedsFirst needs xs (pre ++ post)) :
    NeedsFirst needs xs pre := by
  intro a y b he z hz hn
  exact h a y (b ++ post) (by simp [he]) z hz hn

/-- Whoever needs an element of an order with needs first stands after it. -/
theorem NeedsFirst.mem_after (h : NeedsFirst needs xs order) (hn : order.Nodup) {y : α}
    {pre post : List α} (he : order = pre ++ y :: post) (hx : x ∈ order) (hy : y ∈ xs)
    (hneeds : needs x y) : x ∈ post := by
  obtain ⟨before, after, hsplit⟩ := List.append_of_mem hx
  obtain ⟨front, middle, rfl⟩ := List.append_of_mem (h before x after hsplit y hy hneeds)
  subst he
  obtain ⟨hpre, hpost⟩ := not_mem_around hn
  rw [List.append_assoc, List.cons_append] at hsplit
  obtain ⟨_, _, rfl⟩ := (List.append_cons_inj_of_notMem hpre hpost).mp hsplit
  simp

/-- Along an order with needs first, a chain that starts in it stays in it and
only leads to earlier positions. -/
theorem NeedsFirst.chain_idx [DecidableEq α] (h : NeedsFirst needs xs order) (hx : x ∈ order) {y : α}
    (hc : Relation.TransGen (Edge needs xs) x y) : y ∈ order ∧ order.idxOf y < order.idxOf x := by
  have one : ∀ {a b}, a ∈ order → Edge needs xs a b → b ∈ order ∧ order.idxOf b < order.idxOf a := by
    intro a b ha hab
    obtain ⟨pre, post, he, hna⟩ := List.eq_append_cons_of_mem ha
    have hb : b ∈ pre := h pre a post he b hab.2.1 hab.2.2
    rw [he, List.idxOf_append_of_mem hb, List.idxOf_append_of_notMem hna]
    have := List.idxOf_lt_length_of_mem hb
    exact ⟨List.mem_append_left _ hb, by omega⟩
  induction hc with
  | single hab => exact one hx hab
  | tail _ hbc ih =>
    obtain ⟨hb, hlt⟩ := ih
    obtain ⟨hc, hlt'⟩ := one hb hbc
    exact ⟨hc, Nat.lt_trans hlt' hlt⟩

/-- Nothing in an order with needs first leads to a cycle. -/
theorem NeedsFirst.not_leads (h : NeedsFirst needs xs order) (hx : x ∈ order) :
    ¬ LeadsToCycle needs xs x := by
  classical
  rintro ⟨y, hreach, hcycle⟩
  have hy : y ∈ order := by
    rcases Relation.reflTransGen_iff_eq_or_transGen.mp hreach with rfl | hchain
    · exact hx
    · exact (h.chain_idx hx hchain).1
  exact Nat.lt_irrefl _ (h.chain_idx hy hcycle).2

/-- Whatever can be listed with its needs first has no cycle. -/
theorem NeedsFirst.acyclic (h : NeedsFirst needs xs order) (hall : ∀ y ∈ xs, y ∈ order) :
    Acyclic needs xs := by
  intro y hc
  obtain ⟨z, hedge, _⟩ := Relation.TransGen.head'_iff.mp hc
  exact h.not_leads (hall y hedge.1) ⟨y, .refl, hc⟩

section Greedy
variable [DecidableEq α] [DecidableRel needs]

theorem next?_ready (h : next? needs xs placed = some x) :
    x ∈ xs ∧ Ready needs xs placed x :=
  ⟨List.mem_of_find?_eq_some h, by simpa using List.find?_some h⟩

theorem Greedy.nil : Greedy needs xs [] := by
  intro pre x post h
  simp at h

theorem Greedy.snoc (h : Greedy needs xs order) (hx : next? needs xs order = some x) :
    Greedy needs xs (order ++ [x]) := by
  intro pre y post he
  rcases List.eq_nil_or_concat post with rfl | ⟨post', z, rfl⟩
  · obtain ⟨rfl, hxy⟩ := List.append_inj' he rfl
    obtain rfl : x = y := by simpa using hxy
    exact hx
  · have he' : order ++ [x] = (pre ++ y :: post') ++ [z] := by simpa using he
    exact h pre y post' (List.append_inj' he' rfl).1

theorem Greedy.needsFirst (h : Greedy needs xs order) : NeedsFirst needs xs order :=
  fun pre x post he => (next?_ready (h pre x post he)).2.2

theorem Greedy.nodup (h : Greedy needs xs order) : order.Nodup := by
  rw [List.nodup_iff_count_le_one]
  induction order using List.reverseRecOn with
  | nil => simp
  | append_singleton order x ih =>
    have hx := (next?_ready (h order x [] (by simp))).2.1
    have hp : Greedy needs xs order := fun pre y post he => h pre y (post ++ [x]) (by simp [he])
    intro a
    have ha := ih hp a
    by_cases hax : x = a
    · subst hax
      simp [List.count_append, List.count_eq_zero_of_not_mem hx]
    · simpa [List.count_append, hax] using ha

theorem Greedy.subset (h : Greedy needs xs order) : ∀ y ∈ order, y ∈ xs := by
  intro y hy
  obtain ⟨pre, post, he⟩ := List.append_of_mem hy
  exact (next?_ready (h pre y post he)).1

theorem Greedy.acyclic (h : Greedy needs xs order) (hall : ∀ y ∈ xs, y ∈ order) :
    Acyclic needs xs :=
  h.needsFirst.acyclic hall

end Greedy

end TgeCore.Library.StableOrder
