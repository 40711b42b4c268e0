import TgeCore.Library.Cells
import Mathlib.Data.Finset.Card
import Mathlib.Logic.Relation

namespace TgeCore.Library

/-- What a cell holds that counted references keep. It may hold one reference to an older cell itself. -/
structure Shared (α : Type*) where
  value : α
  parent : Option Nat
  count : Nat

namespace Cells
variable {α : Type*} {c : Cells (Shared α)} {n m p : Nat} {s : Shared α} {roots : List Nat} {parent : Option Nat}

/-- The cells that hold a reference to this one. -/
def children (c : Cells (Shared α)) (n : Nat) : Finset Nat :=
  (Finset.range c.next).filter fun k => (c.cell k).bind Shared.parent = some n

/-- Counts are those of the references from outside and from other cells, and what is referred to is there. -/
structure Balanced (c : Cells (Shared α)) (roots : List Nat) : Prop where
  older : ∀ n s p, c.cell n = some s → s.parent = some p → p < n ∧ (c.cell p).isSome
  held : ∀ n ∈ roots, (c.cell n).isSome
  counts : ∀ n s, c.cell n = some s → 0 < s.count ∧ s.count = roots.count n + (c.children n).card

/-- One more reference from outside. -/
def share (c : Cells (Shared α)) (n : Nat) : Cells (Shared α) :=
  match c.cell n with
  | some s => c.write n { s with count := s.count + 1 }
  | none => c

/-- A new cell with one reference from outside, and a reference to its parent. -/
def make (c : Cells (Shared α)) (value : α) (parent : Option Nat) : Cells (Shared α) :=
  ((parent.map c.share).getD c).alloc ⟨value, parent, 1⟩

/-- A reference goes. The last one frees the cell, and with it goes its reference to its parent. -/
def dropAt : Nat → Cells (Shared α) → Nat → Cells (Shared α)
  | 0, c, _ => c
  | fuel + 1, c, n =>
    match c.cell n with
    | none => c
    | some s =>
      if 1 < s.count then c.write n { s with count := s.count - 1 }
      else
        match s.parent with
        | none => c.free n
        | some p => dropAt fuel (c.free n) p

/-- A parent is older than its child, so this is enough for every reference that goes. -/
def drop (c : Cells (Shared α)) (n : Nat) : Cells (Shared α) := c.dropAt (n + 1) n

def change (c : Cells (Shared α)) (n : Nat) (f : α → α) : Cells (Shared α) :=
  match c.cell n with
  | some s => c.write n { s with value := f s.value }
  | none => c

/-- One cell holds a reference to the other. -/
def Links (c : Cells (Shared α)) (n p : Nat) : Prop := ∃ s, c.cell n = some s ∧ s.parent = some p

theorem mem_children : m ∈ c.children n ↔ c.Links m n := by
  simp only [children, Finset.mem_filter, Finset.mem_range, Option.bind_eq_some_iff, Links]
  constructor
  · intro h
    exact h.2
  · intro h
    obtain ⟨s, hs, hparent⟩ := h
    exact ⟨lt_next hs, s, hs, hparent⟩

theorem Balanced.perm {roots' : List Nat} (h : c.Balanced roots) (hperm : roots.Perm roots') : c.Balanced roots' where
  older := h.older
  held n hn := h.held n (hperm.mem_iff.mpr hn)
  counts n s hs := by
    rw [← hperm.count_eq n]
    exact h.counts n s hs

theorem balanced_empty : (empty : Cells (Shared α)).Balanced [] where
  older n s p hs := by cases hs
  held := by simp
  counts n s hs := by cases hs

/-- A cell written anew that keeps its parent leaves the references between cells. -/
theorem links_write {t : Shared α} (hs : c.cell n = some s) (ht : t.parent = s.parent) (m p : Nat) :
    (c.write n t).Links m p ↔ c.Links m p := by
  simp only [Links, write_eq_some (lt_next hs)]
  by_cases hm : m = n
  · subst hm
    simp [hs, ht]
  · simp [hm]

theorem children_write {t : Shared α} (hs : c.cell n = some s) (ht : t.parent = s.parent) (m : Nat) :
    (c.write n t).children m = c.children m := by
  apply Finset.ext
  intro k
  rw [mem_children, mem_children, links_write hs ht]

theorem isSome_write {t : Shared α} (hs : c.cell n = some s) (m : Nat) :
    ((c.write n t).cell m).isSome = (c.cell m).isSome := by
  by_cases hm : m = n
  · rw [hm, write_self (lt_next hs), hs]
    rfl
  · rw [write_of_ne hm]

/-- A cell whose count is written anew accounts for other references from outside. -/
theorem Balanced.write {roots' : List Nat} {t : Shared α} (h : c.Balanced roots) (hs : c.cell n = some s)
    (ht : t.parent = s.parent) (hcount : 0 < t.count ∧ t.count = roots'.count n + (c.children n).card)
    (hheld : ∀ m ∈ roots', (c.cell m).isSome) (hothers : ∀ m, m ≠ n → roots'.count m = roots.count m) :
    (c.write n t).Balanced roots' where
  older m u p hu hp := by
    obtain ⟨v, hv, hvp⟩ := (links_write hs ht m p).mp ⟨u, hu, hp⟩
    rw [isSome_write hs]
    exact h.older m v p hv hvp
  held m hm := by
    rw [isSome_write hs]
    exact hheld m hm
  counts m u hu := by
    rw [children_write hs ht]
    rcases (write_eq_some (lt_next hs)).mp hu with ⟨rfl, rfl⟩ | ⟨hne, hold⟩
    · exact hcount
    · rw [hothers m hne]
      exact h.counts m u hold

theorem Balanced.change (h : c.Balanced roots) (n : Nat) (f : α → α) : (c.change n f).Balanced roots := by
  unfold Cells.change
  split
  · rename_i s hs
    exact h.write hs rfl (h.counts n s hs) h.held fun m _ => rfl
  · exact h

theorem Balanced.share (h : c.Balanced roots) (hn : (c.cell n).isSome) : (c.share n).Balanced (n :: roots) := by
  obtain ⟨s, hs⟩ := Option.isSome_iff_exists.mp hn
  obtain ⟨-, hcount⟩ := h.counts n s hs
  simp only [Cells.share, hs]
  refine h.write hs (by rfl) ?_ (fun m hm => ?_) fun m hm => ?_
  · refine ⟨Nat.succ_pos _, ?_⟩
    rw [List.count_cons_self]
    show s.count + 1 = _
    omega
  · cases List.mem_cons.mp hm with
    | inl heq => exact heq ▸ hn
    | inr hm => exact h.held m hm
  · exact List.count_cons_of_ne (Ne.symm hm)

theorem links_alloc (s : Shared α) : (c.alloc s).Links m p ↔ m = c.next ∧ s.parent = some p ∨ c.Links m p := by
  simp only [Links, alloc_eq_some]
  constructor
  · intro h
    obtain ⟨t, ⟨rfl, rfl⟩ | ⟨-, ht⟩, hp⟩ := h
    · exact .inl ⟨rfl, hp⟩
    · exact .inr ⟨t, ht, hp⟩
  · intro h
    obtain ⟨rfl, hp⟩ | ⟨t, ht, hp⟩ := h
    · exact ⟨s, .inl ⟨rfl, rfl⟩, hp⟩
    · exact ⟨t, .inr ⟨(lt_next ht).ne, ht⟩, hp⟩

/-- No cell refers to one that is not there yet. -/
theorem Balanced.children_next (h : c.Balanced roots) : c.children c.next = ∅ := by
  apply Finset.eq_empty_of_forall_notMem
  intro k hk
  obtain ⟨s, hs, hparent⟩ := mem_children.mp hk
  have holder := (h.older k s c.next hs hparent).1
  have hk := lt_next hs
  omega

theorem children_alloc_self (s : Shared α) (hs : s.parent = some p) :
    (c.alloc s).children p = insert c.next (c.children p) := by
  apply Finset.ext
  intro k
  rw [Finset.mem_insert, mem_children, mem_children, links_alloc]
  simp [hs]

theorem children_alloc_of_ne (s : Shared α) (hs : s.parent ≠ some p) : (c.alloc s).children p = c.children p := by
  apply Finset.ext
  intro k
  rw [mem_children, mem_children, links_alloc]
  simp [hs]

/-- A new cell takes over the outside reference to its parent. -/
theorem Balanced.alloc (h : c.Balanced (parent.toList ++ roots)) (value : α) :
    (c.alloc ⟨value, parent, 1⟩).Balanced (c.next :: roots) := by
  have hsome : ∀ m, (c.cell m).isSome → ((c.alloc ⟨value, parent, 1⟩).cell m).isSome := by
    intro m hm
    obtain ⟨s, hs⟩ := Option.isSome_iff_exists.mp hm
    rw [alloc_of_ne (lt_next hs).ne]
    exact hm
  have hparent : ∀ p, parent = some p → (c.cell p).isSome := by
    intro p hp
    exact h.held p (by simp [hp])
  refine ⟨fun n s p hs hp => ?_, fun n hn => ?_, fun n s hs => ?_⟩
  · rcases (links_alloc _).mp ⟨s, hs, hp⟩ with ⟨rfl, hp⟩ | ⟨t, ht, hp⟩
    · obtain ⟨u, hu⟩ := Option.isSome_iff_exists.mp (hparent p hp)
      exact ⟨lt_next hu, hsome p (hparent p hp)⟩
    · obtain ⟨hlt, hp⟩ := h.older n t p ht hp
      exact ⟨hlt, hsome p hp⟩
  · cases List.mem_cons.mp hn with
    | inl heq => simp [heq]
    | inr hn => exact hsome n (h.held n (List.mem_append_right _ hn))
  · rcases alloc_eq_some.mp hs with ⟨rfl, rfl⟩ | ⟨hne, hs⟩
    · have hfresh : roots.count c.next = 0 := by
        apply List.count_eq_zero.mpr
        intro hmem
        obtain ⟨s, hs⟩ := Option.isSome_iff_exists.mp (h.held c.next (List.mem_append_right _ hmem))
        exact absurd (lt_next hs) (Nat.lt_irrefl _)
      have hself : parent ≠ some c.next := by
        intro hp
        obtain ⟨s, hs⟩ := Option.isSome_iff_exists.mp (hparent c.next hp)
        exact absurd (lt_next hs) (Nat.lt_irrefl _)
      rw [children_alloc_of_ne _ hself, h.children_next, List.count_cons_self, hfresh]
      exact ⟨Nat.one_pos, rfl⟩
    · obtain ⟨hpos, hcount⟩ := h.counts n s hs
      refine ⟨hpos, ?_⟩
      rw [List.count_cons_of_ne (Ne.symm hne), hcount, List.count_append]
      by_cases hp : parent = some n
      · have hnew : c.next ∉ c.children n := by
          intro hmem
          obtain ⟨t, ht, -⟩ := mem_children.mp hmem
          exact absurd (lt_next ht) (Nat.lt_irrefl _)
        rw [children_alloc_self ⟨value, parent, 1⟩ hp, Finset.card_insert_of_notMem hnew]
        simp only [hp, Option.toList_some, List.count_singleton_self]
        omega
      · rw [children_alloc_of_ne _ hp]
        have hzero : parent.toList.count n = 0 := by
          apply List.count_eq_zero.mpr
          intro hmem
          exact hp (Option.mem_toList.mp hmem)
        omega

theorem next_share (c : Cells (Shared α)) (n : Nat) : (c.share n).next = c.next := by
  unfold Cells.share
  split <;> rfl

theorem Balanced.make (h : c.Balanced roots) (value : α) (hparent : ∀ p, parent = some p → (c.cell p).isSome) :
    (c.make value parent).Balanced (c.next :: roots) := by
  cases parent with
  | none =>
    have hnone : c.Balanced ((none : Option Nat).toList ++ roots) := h
    exact hnone.alloc value
  | some p =>
    have hshared : (c.share p).Balanced ((some p).toList ++ roots) := h.share (hparent p rfl)
    have hmade := hshared.alloc value
    rw [next_share] at hmade
    exact hmade

theorem links_free (hnone : ∀ k, ¬ c.Links k n) (m p : Nat) :
    (c.free n).Links m p ↔ m ≠ n ∧ p ≠ n ∧ c.Links m p := by
  simp only [Links, free_eq_some]
  constructor
  · intro h
    obtain ⟨s, ⟨hm, hs⟩, hp⟩ := h
    refine ⟨hm, fun heq => ?_, s, hs, hp⟩
    exact hnone m ⟨s, hs, heq ▸ hp⟩
  · intro h
    obtain ⟨hm, -, s, hs, hp⟩ := h
    exact ⟨s, ⟨hm, hs⟩, hp⟩

/-- The last reference to a cell goes: what it referred to is now referred to from outside. -/
theorem Balanced.free (h : c.Balanced (n :: roots)) (hs : c.cell n = some s) (hlast : s.count ≤ 1) :
    (c.free n).Balanced (s.parent.toList ++ roots) := by
  obtain ⟨-, hcount⟩ := h.counts n s hs
  rw [List.count_cons_self] at hcount
  have hroots : n ∉ roots := List.count_eq_zero.mp (by omega)
  have hcard : c.children n = ∅ := Finset.card_eq_zero.mp (by omega)
  have hnone : ∀ k, ¬ c.Links k n := by
    intro k hk
    have hmem := mem_children.mpr hk
    simp [hcard] at hmem
  have hkept : ∀ m, m ≠ n → (c.cell m).isSome → ((c.free n).cell m).isSome := by
    intro m hm hsome
    rwa [free_of_ne hm]
  refine ⟨fun m t p ht hp => ?_, fun m hm => ?_, fun m t ht => ?_⟩
  · obtain ⟨-, hpn, u, hu, hup⟩ := (links_free hnone m p).mp ⟨t, ht, hp⟩
    obtain ⟨hlt, hsome⟩ := h.older m u p hu hup
    exact ⟨hlt, hkept p hpn hsome⟩
  · rcases List.mem_append.mp hm with hm | hm
    · obtain ⟨hlt, hsome⟩ := h.older n s m hs (Option.mem_toList.mp hm)
      exact hkept m hlt.ne hsome
    · apply hkept m (fun heq => hroots (heq ▸ hm))
      exact h.held m (List.mem_cons_of_mem n hm)
  · obtain ⟨hne, ht⟩ := free_eq_some.mp ht
    obtain ⟨hpos, hold⟩ := h.counts m t ht
    refine ⟨hpos, ?_⟩
    rw [List.count_cons_of_ne (Ne.symm hne)] at hold
    rw [hold, List.count_append]
    have hchildren : (c.free n).children m = (c.children m).erase n := by
      apply Finset.ext
      intro k
      rw [Finset.mem_erase, mem_children, mem_children, links_free hnone]
      simp [hne]
    rw [hchildren]
    by_cases hp : s.parent = some m
    · have hmem : n ∈ c.children m := mem_children.mpr ⟨s, hs, hp⟩
      have hcards := Finset.card_erase_add_one hmem
      simp only [hp, Option.toList_some, List.count_singleton_self]
      omega
    · have hmem : n ∉ c.children m := by
        intro hmem
        obtain ⟨u, hu, hup⟩ := mem_children.mp hmem
        obtain rfl := Option.some.inj (hs.symm.trans hu)
        exact hp hup
      have hzero : s.parent.toList.count m = 0 := by
        apply List.count_eq_zero.mpr
        intro hin
        exact hp (Option.mem_toList.mp hin)
      rw [Finset.erase_eq_of_notMem hmem]
      omega

theorem Balanced.dropAt {fuel : Nat} (h : c.Balanced (n :: roots)) (hfuel : n < fuel) :
    (c.dropAt fuel n).Balanced roots := by
  induction fuel generalizing c n with
  | zero => cases hfuel
  | succ fuel ih =>
    obtain ⟨s, hs⟩ := Option.isSome_iff_exists.mp (h.held n List.mem_cons_self)
    simp only [Cells.dropAt, hs]
    split
    · rename_i hmany
      obtain ⟨-, hcount⟩ := h.counts n s hs
      rw [List.count_cons_self] at hcount
      refine h.write hs (by rfl) ⟨?_, ?_⟩ (fun m hm => h.held m (List.mem_cons_of_mem n hm)) fun m hm => ?_
      · show 0 < s.count - 1
        omega
      · show s.count - 1 = _
        omega
      · exact (List.count_cons_of_ne (Ne.symm hm)).symm
    · rename_i hlast
      have hfreed := h.free hs (by omega)
      cases hp : s.parent with
      | none =>
        rw [hp] at hfreed
        exact hfreed
      | some p =>
        rw [hp] at hfreed
        have hlt := (h.older n s p hs hp).1
        exact ih hfreed (by omega)

theorem Balanced.drop (h : c.Balanced (n :: roots)) : (c.drop n).Balanced roots := h.dropAt (Nat.lt_succ_self n)

/-- What goes with a reference goes whole, and what stays is only counted anew. -/
theorem dropAt_eq_some {fuel : Nat} (h : (c.dropAt fuel n).cell m = some s) :
    ∃ t, c.cell m = some t ∧ t.value = s.value ∧ t.parent = s.parent := by
  induction fuel generalizing c n with
  | zero => exact ⟨s, h, rfl, rfl⟩
  | succ fuel ih =>
    simp only [dropAt] at h
    split at h
    · exact ⟨s, h, rfl, rfl⟩
    · rename_i t ht
      split at h
      · rcases (write_eq_some (lt_next ht)).mp h with ⟨rfl, rfl⟩ | ⟨-, hm⟩
        · exact ⟨t, ht, rfl, rfl⟩
        · exact ⟨s, hm, rfl, rfl⟩
      · split at h
        · exact ⟨s, (free_eq_some.mp h).2, rfl, rfl⟩
        · obtain ⟨u, hu, hvalue, hparent⟩ := ih h
          exact ⟨u, (free_eq_some.mp hu).2, hvalue, hparent⟩

theorem next_dropAt (fuel : Nat) (c : Cells (Shared α)) (n : Nat) : (c.dropAt fuel n).next = c.next := by
  induction fuel generalizing c n with
  | zero => rfl
  | succ fuel ih =>
    simp only [dropAt]
    split
    · rfl
    · split
      · rfl
      · split
        · rfl
        · exact ih _ _

theorem share_eq_some (h : (c.share n).cell m = some s) :
    ∃ t, c.cell m = some t ∧ t.value = s.value ∧ t.parent = s.parent := by
  unfold share at h
  split at h
  · rename_i t ht
    rcases (write_eq_some (lt_next ht)).mp h with ⟨rfl, rfl⟩ | ⟨-, hm⟩
    · exact ⟨t, ht, rfl, rfl⟩
    · exact ⟨s, hm, rfl, rfl⟩
  · exact ⟨s, h, rfl, rfl⟩

@[simp] theorem next_make (c : Cells (Shared α)) (value : α) (parent : Option Nat) :
    (c.make value parent).next = c.next + 1 := by
  cases parent with
  | none => rfl
  | some p => exact congrArg (· + 1) (next_share c p)

/-- What a new cell leaves of the others. -/
theorem make_eq_some {value : α} (h : (c.make value parent).cell m = some s) :
    (m = c.next ∧ s.value = value ∧ s.parent = parent) ∨
      (m ≠ c.next ∧ ∃ t, c.cell m = some t ∧ t.value = s.value ∧ t.parent = s.parent) := by
  cases parent with
  | none =>
    rcases alloc_eq_some.mp h with ⟨rfl, rfl⟩ | ⟨hne, hs⟩
    · exact .inl ⟨rfl, rfl, rfl⟩
    · exact .inr ⟨hne, s, hs, rfl, rfl⟩
  | some p =>
    rcases alloc_eq_some.mp h with ⟨rfl, rfl⟩ | ⟨hne, hs⟩
    · exact .inl ⟨next_share c p, rfl, rfl⟩
    · exact .inr ⟨fun heq => hne (heq.trans (next_share c p).symm), share_eq_some hs⟩

/-- Whatever is kept is kept by a reference from outside, on itself or on a cell that refers to it in turn. -/
theorem Balanced.kept (h : c.Balanced roots) (hs : c.cell n = some s) :
    ∃ r ∈ roots, Relation.ReflTransGen c.Links r n := by
  have hbelow : ∀ k, ∀ n s, c.next - n ≤ k → c.cell n = some s → ∃ r ∈ roots, Relation.ReflTransGen c.Links r n := by
    intro k
    induction k with
    | zero =>
      intro n s hk hs
      have := lt_next hs
      omega
    | succ k ih =>
      intro n s hk hs
      obtain ⟨hpos, hcount⟩ := h.counts n s hs
      by_cases hroot : n ∈ roots
      · exact ⟨n, hroot, .refl⟩
      · have hzero := List.count_eq_zero.mpr hroot
        have hcard : 0 < (c.children n).card := by omega
        obtain ⟨child, hchild⟩ := Finset.card_pos.mp hcard
        obtain ⟨t, ht, hparent⟩ := mem_children.mp hchild
        have hlt := (h.older child t n ht hparent).1
        have hnext := lt_next hs
        obtain ⟨r, hr, hpath⟩ := ih child t (by omega) ht
        exact ⟨r, hr, hpath.tail ⟨t, ht, hparent⟩⟩
  exact hbelow _ n s (Nat.le_refl _) hs

/-- What a kept cell refers to in turn is kept. -/
theorem Balanced.isSome_of_links (h : c.Balanced roots) (hn : (c.cell n).isSome)
    (hpath : Relation.ReflTransGen c.Links n m) : (c.cell m).isSome := by
  induction hpath with
  | refl => exact hn
  | tail _ hlast _ =>
    obtain ⟨s, hs, hparent⟩ := hlast
    exact (h.older _ s _ hs hparent).2

end Cells

end TgeCore.Library
