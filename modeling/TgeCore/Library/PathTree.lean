import Mathlib.Data.List.Infix

namespace TgeCore.Library

/-- In a list of pairs where no two of a key differ, looking a key up finds the pair that is there. -/
theorem find_first_eq_some {κ β : Type*} [DecidableEq κ] {pairs : List (κ × β)} {k : κ} {b : β}
    (h : ∀ k b b', (k, b) ∈ pairs → (k, b') ∈ pairs → b = b') :
    (pairs.find? (·.1 = k)).map Prod.snd = some b ↔ (k, b) ∈ pairs := by
  simp only [Option.map_eq_some_iff, Prod.exists, exists_eq_right]
  constructor
  · rintro ⟨k', hfound⟩
    obtain rfl : k' = k := by simpa using List.find?_some hfound
    exact List.mem_of_find?_eq_some hfound
  · intro hmem
    cases hfound : pairs.find? (·.1 = k) with
    | none => exact absurd (List.find?_eq_none.mp hfound _ hmem) (by simp)
    | some pair =>
      obtain rfl : pair.1 = k := by simpa using List.find?_some hfound
      have hb : pair.2 = b := h _ _ _ (List.mem_of_find?_eq_some hfound) hmem
      exact ⟨pair.1, by rw [← hb]⟩

theorem find_first_eq_none {κ β : Type*} [DecidableEq κ] {pairs : List (κ × β)} {k : κ} :
    (pairs.find? (·.1 = k)).map Prod.snd = none ↔ ∀ b, (k, b) ∉ pairs := by
  simp only [Option.map_eq_none_iff, List.find?_eq_none, decide_eq_true_eq, Prod.forall]
  constructor
  · intro h b hmem
    exact h k b hmem rfl
  · rintro h k' b hmem rfl
    exact h b hmem

/-- Folders by their paths from one top, each with a number of its own that it
keeps when it is moved. -/
structure PathTree (α : Type*) where
  nodes : List (List α × Nat)
  next : Nat
  single : ∀ path i j, (path, i) ∈ nodes → (path, j) ∈ nodes → i = j
  placed : ∀ p q i, (p, i) ∈ nodes → (q, i) ∈ nodes → p = q
  rooted : ∀ path name i, (path ++ [name], i) ∈ nodes → ∃ j, (path, j) ∈ nodes
  fresh : ∀ path i, (path, i) ∈ nodes → i < next

/-- Where a path leads after a folder and all below it were moved. -/
def relocate {α : Type*} [DecidableEq α] (old new path : List α) : List α :=
  if old <+: path then new ++ path.drop old.length else path

namespace PathTree
variable {α : Type*} [DecidableEq α] (t : PathTree α)

def find (path : List α) : Option Nat := (t.nodes.find? (·.1 = path)).map Prod.snd

/-- The names of the folders in a folder. -/
def children (path : List α) : List α :=
  t.nodes.filterMap fun node => if node.1.dropLast = path then node.1.getLast? else none

/-- No folder is in it. -/
def Empty (path : List α) : Prop := ∀ node ∈ t.nodes, path <+: node.1 → node.1 = path

instance (path : List α) : Decidable (t.Empty path) :=
  inferInstanceAs (Decidable (∀ node ∈ t.nodes, path <+: node.1 → node.1 = path))

variable {t} {path old new : List α} {name : α} {i j : Nat}

theorem find_eq_some : t.find path = some i ↔ (path, i) ∈ t.nodes := find_first_eq_some t.single

theorem find_eq_none : t.find path = none ↔ ∀ i, (path, i) ∉ t.nodes := find_first_eq_none

theorem mem_children : name ∈ t.children path ↔ ∃ i, (path ++ [name], i) ∈ t.nodes := by
  simp only [children, List.mem_filterMap, Prod.exists, Option.ite_none_right_eq_some,
    List.getLast?_eq_some_iff]
  constructor
  · rintro ⟨p, i, hmem, rfl, q, rfl⟩
    exact ⟨i, by simpa using hmem⟩
  · rintro ⟨i, hmem⟩
    exact ⟨_, i, hmem, by simp, path, rfl⟩

/-- The top alone. -/
def top : PathTree α where
  nodes := [([], 0)]
  next := 1
  single := by
    intro path i j hi hj
    simp only [List.mem_singleton, Prod.mk.injEq] at hi hj
    omega
  placed := by
    intro p q i hp hq
    simp only [List.mem_singleton, Prod.mk.injEq] at hp hq
    rw [hp.1, hq.1]
  rooted := by simp
  fresh := by simp

def create (t : PathTree α) (parent : List α) (name : α) : Option (PathTree α) :=
  if h : (t.find parent).isSome ∧ t.find (parent ++ [name]) = none then
    some {
      nodes := t.nodes ++ [(parent ++ [name], t.next)]
      next := t.next + 1
      single := by
        have hnone := find_eq_none.mp h.2
        intro path i j hi hj
        simp only [List.mem_append, List.mem_singleton, Prod.mk.injEq] at hi hj
        rcases hi with hi | ⟨rfl, rfl⟩ <;> rcases hj with hj | ⟨hp, rfl⟩
        · exact t.single path i j hi hj
        · exact absurd (hp ▸ hi) (hnone i)
        · exact absurd hj (hnone j)
        · rfl
      placed := by
        intro p q i hp hq
        simp only [List.mem_append, List.mem_singleton, Prod.mk.injEq] at hp hq
        rcases hp with hp | ⟨rfl, rfl⟩ <;> rcases hq with hq | ⟨rfl, hi⟩
        · exact t.placed p q i hp hq
        · exact absurd (t.fresh _ _ hp) (by omega)
        · exact absurd (t.fresh _ _ hq) (by omega)
        · rfl
      rooted := by
        obtain ⟨k, hk⟩ := Option.isSome_iff_exists.mp h.1
        intro path' name' i hi
        simp only [List.mem_append, List.mem_singleton, Prod.mk.injEq] at hi
        rcases hi with hi | ⟨hp, rfl⟩
        · obtain ⟨j, hj⟩ := t.rooted path' name' i hi
          exact ⟨j, List.mem_append_left _ hj⟩
        · obtain ⟨rfl, -⟩ := List.append_inj' hp rfl
          exact ⟨k, List.mem_append_left _ (find_eq_some.mp hk)⟩
      fresh := by
        intro path i hi
        simp only [List.mem_append, List.mem_singleton, Prod.mk.injEq] at hi
        rcases hi with hi | ⟨rfl, rfl⟩
        · exact Nat.lt_succ_of_lt (t.fresh path i hi)
        · exact Nat.lt_succ_self _ }
  else none

def remove (t : PathTree α) (path : List α) : Option (PathTree α) :=
  if h : (t.find path).isSome ∧ t.Empty path then
    some {
      nodes := t.nodes.filter (·.1 ≠ path)
      next := t.next
      single := fun p i j hi hj => t.single p i j (List.mem_filter.mp hi).1 (List.mem_filter.mp hj).1
      placed := fun p q i hp hq => t.placed p q i (List.mem_filter.mp hp).1 (List.mem_filter.mp hq).1
      rooted := by
        intro p name i hi
        simp only [List.mem_filter, decide_eq_true_eq] at hi ⊢
        obtain ⟨j, hj⟩ := t.rooted p name i hi.1
        refine ⟨j, hj, ?_⟩
        rintro rfl
        exact hi.2 (h.2 _ hi.1 (List.prefix_append _ _))
      fresh := fun p i hi => t.fresh p i (List.mem_filter.mp hi).1 }
  else none

/-- What a move may do: a folder that is there goes to a folder that is there and
is not below it, under a name that is free or of an empty folder. -/
structure CanMove (t : PathTree α) (old parent : List α) (name : α) : Prop where
  source : (t.find old).isSome
  target : (t.find parent).isSome
  apart : ¬ old <+: parent ++ [name]
  empty : t.Empty (parent ++ [name])

instance (old parent : List α) (name : α) : Decidable (t.CanMove old parent name) :=
  decidable_of_iff ((t.find old).isSome ∧ (t.find parent).isSome ∧ ¬ old <+: parent ++ [name] ∧
      t.Empty (parent ++ [name]))
    ⟨fun ⟨h₁, h₂, h₃, h₄⟩ => ⟨h₁, h₂, h₃, h₄⟩, fun ⟨h₁, h₂, h₃, h₄⟩ => ⟨h₁, h₂, h₃, h₄⟩⟩

def movedNodes (t : PathTree α) (old new : List α) : List (List α × Nat) :=
  (t.nodes.filter (·.1 ≠ new)).map fun node => (relocate old new node.1, node.2)

theorem mem_movedNodes (hapart : ¬ old <+: new) :
    (path, i) ∈ t.movedNodes old new ↔
      (∃ below, path = new ++ below ∧ (old ++ below, i) ∈ t.nodes) ∨
        (¬ old <+: path ∧ path ≠ new ∧ (path, i) ∈ t.nodes) := by
  simp only [movedNodes, List.mem_map, List.mem_filter, decide_eq_true_eq, Prod.mk.injEq, Prod.exists,
    ↓existsAndEq, and_true]
  constructor
  · rintro ⟨q, ⟨hmem, hne⟩, hq⟩
    by_cases hin : old <+: q
    · obtain ⟨below, rfl⟩ := hin
      exact .inl ⟨below, by simp [← hq, relocate], hmem⟩
    · rw [relocate, if_neg hin] at hq
      subst q
      exact .inr ⟨hin, hne, hmem⟩
  · rintro (⟨below, rfl, hmem⟩ | ⟨hin, hne, hmem⟩)
    · refine ⟨old ++ below, ⟨hmem, ?_⟩, by simp [relocate]⟩
      rintro rfl
      exact hapart (List.prefix_append _ _)
    · exact ⟨path, ⟨hmem, hne⟩, by rw [relocate, if_neg hin]⟩

theorem relocated_single (hempty : t.Empty new) (hapart : ¬ old <+: new)
    (hi : (path, i) ∈ t.movedNodes old new) (hj : (path, j) ∈ t.movedNodes old new) : i = j := by
  rcases (mem_movedNodes hapart).mp hi with ⟨below, rfl, hfrom⟩ | ⟨-, hne, hfrom⟩ <;>
    rcases (mem_movedNodes hapart).mp hj with ⟨below', hp, hfrom'⟩ | ⟨-, hne', hfrom'⟩
  · obtain rfl := List.append_cancel_left hp
    exact t.single _ i j hfrom hfrom'
  · exact absurd (hempty _ hfrom' (List.prefix_append _ _)) hne'
  · exact absurd (hempty _ hfrom ⟨below', hp.symm⟩) hne
  · exact t.single path i j hfrom hfrom'

theorem relocated_placed {q : List α} (hapart : ¬ old <+: new)
    (hp : (path, i) ∈ t.movedNodes old new) (hq : (q, i) ∈ t.movedNodes old new) : path = q := by
  rcases (mem_movedNodes hapart).mp hp with ⟨below, rfl, hfrom⟩ | ⟨hout, -, hfrom⟩ <;>
    rcases (mem_movedNodes hapart).mp hq with ⟨below', rfl, hfrom'⟩ | ⟨hout', -, hfrom'⟩
  · rw [List.append_cancel_left (t.placed _ _ i hfrom hfrom')]
  · exact absurd ⟨below, t.placed _ _ i hfrom hfrom'⟩ hout'
  · exact absurd ⟨below', t.placed _ _ i hfrom' hfrom⟩ hout
  · exact t.placed path q i hfrom hfrom'

theorem relocated_rooted {parent : List α} {name' : α} (hmove : t.CanMove old parent name')
    (hi : (path ++ [name], i) ∈ t.movedNodes old (parent ++ [name'])) :
    ∃ j, (path, j) ∈ t.movedNodes old (parent ++ [name']) := by
  simp only [mem_movedNodes hmove.apart] at hi ⊢
  rcases hi with ⟨below, hp, hi⟩ | ⟨hout, hne, hi⟩
  · rcases List.eq_nil_or_concat below with rfl | ⟨above, last, rfl⟩
    · -- the moved folder itself: its new parent stayed where it was
      obtain ⟨rfl, -⟩ := List.append_inj' (hp.trans (List.append_nil _)) rfl
      obtain ⟨j, hj⟩ := Option.isSome_iff_exists.mp hmove.target
      refine ⟨j, .inr ⟨?_, by simp, find_eq_some.mp hj⟩⟩
      exact fun hin => hmove.apart (hin.trans (List.prefix_append _ _))
    · rw [List.concat_eq_append, ← List.append_assoc] at hp hi
      obtain ⟨rfl, -⟩ := List.append_inj' hp rfl
      obtain ⟨j, hj⟩ := t.rooted _ _ _ hi
      exact ⟨j, .inl ⟨above, rfl, hj⟩⟩
  · obtain ⟨j, hj⟩ := t.rooted _ _ _ hi
    refine ⟨j, .inr ⟨fun hin => hout (hin.trans (List.prefix_append _ _)), ?_, hj⟩⟩
    rintro rfl
    exact hne (hmove.empty _ hi (List.prefix_append _ _))

/-- The folder and all below it get new paths. An empty folder in its way goes. -/
def move (t : PathTree α) (old parent : List α) (name : α) : Option (PathTree α) :=
  if h : t.CanMove old parent name then
    some {
      nodes := t.movedNodes old (parent ++ [name])
      next := t.next
      single := fun _ _ _ => relocated_single h.empty h.apart
      placed := fun _ _ _ => relocated_placed h.apart
      rooted := fun _ _ _ => relocated_rooted h
      fresh := by
        intro path i hi
        rcases (mem_movedNodes h.apart).mp hi with ⟨below, -, hi⟩ | ⟨-, -, hi⟩
        · exact t.fresh _ i hi
        · exact t.fresh _ i hi }
  else none

variable {t' : PathTree α} {parent : List α}

theorem create_eq_some (h : t.create parent name = some t') :
    (t.find parent).isSome ∧ t.find (parent ++ [name]) = none ∧
      t'.nodes = t.nodes ++ [(parent ++ [name], t.next)] ∧ t'.next = t.next + 1 := by
  unfold create at h
  split at h
  · rename_i hguard
    obtain rfl := Option.some.inj h
    exact ⟨hguard.1, hguard.2, rfl, rfl⟩
  · cases h

theorem remove_eq_some (h : t.remove path = some t') :
    (t.find path).isSome ∧ t.Empty path ∧ t'.nodes = t.nodes.filter (·.1 ≠ path) ∧ t'.next = t.next := by
  unfold remove at h
  split at h
  · rename_i hguard
    obtain rfl := Option.some.inj h
    exact ⟨hguard.1, hguard.2, rfl, rfl⟩
  · cases h

theorem move_eq_some (h : t.move old parent name = some t') :
    t.CanMove old parent name ∧ t'.nodes = t.movedNodes old (parent ++ [name]) ∧ t'.next = t.next := by
  unfold move at h
  split at h
  · rename_i hguard
    obtain rfl := Option.some.inj h
    exact ⟨hguard, rfl, rfl⟩
  · cases h

end PathTree

end TgeCore.Library
