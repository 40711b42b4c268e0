import Mathlib.Data.List.Basic
import Mathlib.Data.List.TakeWhile
import Mathlib.Order.Interval.Finset.Nat

namespace TgeCore.Library.Extents

/-- A run of consecutive addresses. -/
structure Extent where
  addr : Nat
  size : Nat
deriving DecidableEq, Repr

def Extent.stop (e : Extent) : Nat := e.addr + e.size

def Extent.Has (e : Extent) (x : Nat) : Prop := e.addr ≤ x ∧ x < e.stop

def Apart (a b : Extent) : Prop := ∀ x, a.Has x → ¬ b.Has x

def Covers (es : List Extent) (x : Nat) : Prop := ∃ e ∈ es, e.Has x

/-- Sorted by address without overlaps. -/
def Ordered (es : List Extent) : Prop := es.Pairwise (fun a b => a.stop ≤ b.addr)

/-- Sorted by address, neither overlapping nor touching. -/
def Spaced (es : List Extent) : Prop := es.Pairwise (fun a b => a.stop < b.addr)

instance (es : List Extent) : Decidable (Spaced es) :=
  inferInstanceAs (Decidable (es.Pairwise _))

def total : List Extent → Nat
  | [] => 0
  | e :: es => e.size + total es

/-- Merging an extent with those that touch it, and so on along the list. -/
def coalesceFrom (a : Extent) : List Extent → List Extent
  | [] => [a]
  | b :: rest =>
    if a.stop = b.addr then coalesceFrom ⟨a.addr, a.size + b.size⟩ rest
    else a :: coalesceFrom b rest

def coalesce : List Extent → List Extent
  | [] => []
  | a :: rest => coalesceFrom a rest

/-- A new extent goes before the first one that does not start below it. -/
def insertSorted (new : Extent) (es : List Extent) : List Extent :=
  es.takeWhile (fun e => decide (e.addr < new.addr)) ++
    new :: es.dropWhile (fun e => decide (e.addr < new.addr))

variable {a b new : Extent} {es rest : List Extent} {lo hi n : Nat}

@[simp] theorem covers_nil (x : Nat) : ¬ Covers [] x := by
  rintro ⟨e, he, _⟩
  cases he

@[simp] theorem covers_cons (x : Nat) : Covers (a :: es) x ↔ a.Has x ∨ Covers es x := by
  simp [Covers]

theorem covers_append {es' : List Extent} (x : Nat) :
    Covers (es ++ es') x ↔ Covers es x ∨ Covers es' x := by
  simp [Covers, or_and_right, exists_or]

@[simp] theorem total_nil : total [] = 0 := rfl

@[simp] theorem total_cons : total (a :: es) = a.size + total es := rfl

theorem total_append {es' : List Extent} : total (es ++ es') = total es + total es' := by
  induction es with
  | nil => simp
  | cons e es ih => simp [ih, Nat.add_assoc]

theorem Spaced.ordered (h : Spaced es) : Ordered es :=
  h.imp fun hab => Nat.le_of_lt hab

section Shrink
variable {pre post : List Extent} {e f : Extent}

/-- An extent may be replaced by a part of it. -/
theorem spaced_shrink (h : Spaced (pre ++ e :: post)) (hl : e.addr ≤ f.addr) (hu : f.stop ≤ e.stop) :
    Spaced (pre ++ f :: post) := by
  obtain ⟨hpre, hpost, hcross⟩ := List.pairwise_append.mp h
  obtain ⟨he, hpost⟩ := List.pairwise_cons.mp hpost
  refine List.pairwise_append.mpr ⟨hpre, List.pairwise_cons.mpr ⟨?_, hpost⟩, ?_⟩
  · intro g hg
    exact Nat.lt_of_le_of_lt hu (he g hg)
  · intro g hg k hk
    rcases List.mem_cons.mp hk with rfl | hk
    · exact Nat.lt_of_lt_of_le (hcross g hg e (by simp)) hl
    · exact hcross g hg k (by simp [hk])

theorem spaced_remove (h : Spaced (pre ++ e :: post)) : Spaced (pre ++ post) :=
  h.sublist ((List.sublist_cons_self e post).append_left pre)

end Shrink

/-- Merging keeps every address and its count. -/
theorem covers_coalesceFrom (x : Nat) : Covers (coalesceFrom a rest) x ↔ Covers (a :: rest) x := by
  induction rest generalizing a with
  | nil => rfl
  | cons b rest ih =>
    simp only [coalesceFrom]
    split
    · rename_i h
      rw [ih]
      simp only [covers_cons, Extent.Has, Extent.stop] at h ⊢
      constructor
      · rintro (⟨hl, hu⟩ | hr)
        · rcases Nat.lt_or_ge x b.addr with hx | hx
          · exact .inl ⟨hl, by omega⟩
          · exact .inr (.inl ⟨hx, by omega⟩)
        · exact .inr (.inr hr)
      · rintro (⟨hl, hu⟩ | ⟨hl, hu⟩ | hr)
        · exact .inl ⟨hl, by omega⟩
        · exact .inl ⟨by omega, by omega⟩
        · exact .inr hr
    · rw [covers_cons, ih, covers_cons (a := a)]

theorem total_coalesceFrom : total (coalesceFrom a rest) = total (a :: rest) := by
  induction rest generalizing a with
  | nil => rfl
  | cons b rest ih =>
    simp only [coalesceFrom]
    split
    · rw [ih]
      simp only [total_cons]
      omega
    · rw [total_cons, ih, total_cons (a := a)]

theorem coalesceFrom_bounds (h : ∀ e ∈ a :: rest, lo ≤ e.addr ∧ e.stop ≤ hi ∧ n ≤ e.size) :
    ∀ e ∈ coalesceFrom a rest, lo ≤ e.addr ∧ e.stop ≤ hi ∧ n ≤ e.size := by
  induction rest generalizing a with
  | nil => exact h
  | cons b rest ih =>
    simp only [coalesceFrom]
    obtain ⟨ha, hb, hrest⟩ := (List.forall_mem_cons.trans (and_congr_right fun _ =>
      List.forall_mem_cons)).mp h
    split
    · rename_i htouch
      apply ih
      rw [List.forall_mem_cons]
      refine ⟨⟨ha.1, ?_, ?_⟩, hrest⟩
      · simp only [Extent.stop] at htouch hb ⊢
        omega
      · simp only
        omega
    · rw [List.forall_mem_cons]
      exact ⟨ha, ih (List.forall_mem_cons.mpr ⟨hb, hrest⟩)⟩

theorem coalesceFrom_first (ho : Ordered (a :: rest)) : ∀ e ∈ coalesceFrom a rest, a.addr ≤ e.addr := by
  induction rest generalizing a with
  | nil => simp [coalesceFrom]
  | cons b rest ih =>
    obtain ⟨ha, hb⟩ := List.pairwise_cons.mp ho
    obtain ⟨hbr, hr⟩ := List.pairwise_cons.mp hb
    have hab := ha b (by simp)
    simp only [coalesceFrom]
    intro e he
    split at he
    · rename_i htouch
      refine ih (a := ⟨a.addr, a.size + b.size⟩) (List.pairwise_cons.mpr ⟨fun f hf => ?_, hr⟩) e he
      have := hbr f hf
      simp only [Extent.stop] at this htouch ⊢
      omega
    · rcases List.mem_cons.mp he with rfl | he
      · exact Nat.le_refl _
      · have := ih hb e he
        simp only [Extent.stop] at hab
        omega

/-- After merging, nothing touches. -/
theorem spaced_coalesceFrom (ho : Ordered (a :: rest)) : Spaced (coalesceFrom a rest) := by
  induction rest generalizing a with
  | nil => exact List.pairwise_singleton _ _
  | cons b rest ih =>
    obtain ⟨ha, hb⟩ := List.pairwise_cons.mp ho
    obtain ⟨hbr, hr⟩ := List.pairwise_cons.mp hb
    simp only [coalesceFrom]
    split
    · rename_i htouch
      apply ih
      refine List.pairwise_cons.mpr ⟨fun e he => ?_, hr⟩
      have := hbr e he
      simp only [Extent.stop] at this htouch ⊢
      omega
    · rename_i htouch
      refine List.pairwise_cons.mpr ⟨fun e he => ?_, ih hb⟩
      have := coalesceFrom_first hb e he
      have := ha b (by simp)
      omega

section Coalesce
variable (es)

theorem covers_coalesce (x : Nat) : Covers (coalesce es) x ↔ Covers es x := by
  cases es with
  | nil => rfl
  | cons a rest => exact covers_coalesceFrom x

theorem total_coalesce : total (coalesce es) = total es := by
  cases es with
  | nil => rfl
  | cons a rest => exact total_coalesceFrom

variable {es}

theorem coalesce_bounds (h : ∀ e ∈ es, lo ≤ e.addr ∧ e.stop ≤ hi ∧ n ≤ e.size) :
    ∀ e ∈ coalesce es, lo ≤ e.addr ∧ e.stop ≤ hi ∧ n ≤ e.size := by
  cases es with
  | nil => exact h
  | cons a rest => exact coalesceFrom_bounds h

theorem spaced_coalesce (ho : Ordered es) : Spaced (coalesce es) := by
  cases es with
  | nil => exact List.Pairwise.nil
  | cons a rest => exact spaced_coalesceFrom ho

end Coalesce

/-- Inserting an extent that covers nothing covered keeps the order. -/
theorem ordered_insertSorted (hs : Ordered es) (hpos : ∀ e ∈ es, 0 < e.size) (hnew : 0 < new.size)
    (hfree : ∀ x, new.Has x → ¬ Covers es x) : Ordered (insertSorted new es) := by
  have hbelow : ∀ e ∈ es, e.addr < new.addr → e.stop ≤ new.addr := by
    intro e he hlt
    by_contra hn
    exact hfree new.addr ⟨Nat.le_refl _, by simp only [Extent.stop]; omega⟩
      ⟨e, he, Nat.le_of_lt hlt, by omega⟩
  have habove : ∀ e ∈ es, new.addr ≤ e.addr → new.stop ≤ e.addr := by
    intro e he hle
    by_contra hn
    have := hpos e he
    exact hfree e.addr ⟨hle, by omega⟩ ⟨e, he, Nat.le_refl _, by simp only [Extent.stop]; omega⟩
  have hdrop : ∀ e ∈ es.dropWhile (fun e => decide (e.addr < new.addr)), new.addr ≤ e.addr := by
    intro e he
    cases hd : es.dropWhile (fun e => decide (e.addr < new.addr)) with
    | nil =>
      rw [hd] at he
      cases he
    | cons first others =>
      have hfirst : new.addr ≤ first.addr := by
        have := List.head_dropWhile_not (fun e : Extent => decide (e.addr < new.addr)) (l := es)
          (by rw [hd]; simp)
        simp only [hd, List.head_cons, decide_eq_false_iff_not] at this
        omega
      have hsub : Ordered (first :: others) :=
        hd ▸ hs.sublist (List.dropWhile_sublist _)
      rw [hd] at he
      rcases List.mem_cons.mp he with rfl | ho
      · exact hfirst
      · have := (List.pairwise_cons.mp hsub).1 e ho
        simp only [Extent.stop] at this
        omega
  have htake : ∀ e ∈ es.takeWhile (fun e => decide (e.addr < new.addr)), e.addr < new.addr := by
    intro e he
    simpa using List.mem_takeWhile_imp he
  have hmemTake : ∀ e ∈ es.takeWhile (fun e => decide (e.addr < new.addr)), e ∈ es :=
    fun e he => (List.takeWhile_sublist _).subset he
  have hmemDrop : ∀ e ∈ es.dropWhile (fun e => decide (e.addr < new.addr)), e ∈ es :=
    fun e he => (List.dropWhile_sublist _).subset he
  refine List.pairwise_append.mpr ⟨hs.sublist (List.takeWhile_sublist _), ?_, ?_⟩
  · refine List.pairwise_cons.mpr ⟨fun e he => ?_, hs.sublist (List.dropWhile_sublist _)⟩
    exact habove e (hmemDrop e he) (hdrop e he)
  · intro e he f hf
    have hstop := hbelow e (hmemTake e he) (htake e he)
    rcases List.mem_cons.mp hf with rfl | hf
    · exact hstop
    · exact Nat.le_trans hstop (hdrop f hf)

theorem insertSorted_perm (new : Extent) (es : List Extent) : (insertSorted new es).Perm (new :: es) := by
  have hmiddle : (insertSorted new es).Perm (new :: (es.takeWhile (fun e => decide (e.addr < new.addr)) ++
      es.dropWhile (fun e => decide (e.addr < new.addr)))) := List.perm_middle
  rwa [List.takeWhile_append_dropWhile] at hmiddle

theorem covers_perm {es' : List Extent} (h : es.Perm es') (x : Nat) : Covers es x ↔ Covers es' x := by
  simp only [Covers, h.mem_iff]

theorem total_perm {es' : List Extent} (h : es.Perm es') : total es = total es' := by
  induction h with
  | nil => rfl
  | cons e _ ih => rw [total_cons, total_cons, ih]
  | swap e f es =>
    simp only [total_cons]
    omega
  | trans _ _ ih ih' => exact ih.trans ih'

/-- Extents in order take no more room than there is. -/
theorem total_le (lo : Nat) (ho : Ordered es) (hw : ∀ e ∈ es, lo ≤ e.addr ∧ e.stop ≤ hi) (hle : lo ≤ hi) :
    lo + total es ≤ hi := by
  induction es generalizing lo with
  | nil => simpa using hle
  | cons a es ih =>
    obtain ⟨ha, hes⟩ := List.pairwise_cons.mp ho
    obtain ⟨hwa, hwes⟩ := List.forall_mem_cons.mp hw
    have := ih _ hes (fun e he => ⟨ha e he, (hwes e he).2⟩) hwa.2
    simp only [total_cons, Extent.stop] at this hwa ⊢
    omega

/-- Extents that share no address count each address that they cover once. -/
theorem exists_card_eq_total (h : es.Pairwise Apart) :
    ∃ covered : Finset Nat, covered.card = total es ∧ ∀ x, x ∈ covered ↔ Covers es x := by
  induction es with
  | nil => exact ⟨∅, rfl, by simp⟩
  | cons a es ih =>
    obtain ⟨ha, hes⟩ := List.pairwise_cons.mp h
    obtain ⟨covered, hcard, hcovers⟩ := ih hes
    have hhas (x : Nat) : x ∈ Finset.Ico a.addr a.stop ↔ a.Has x := Finset.mem_Ico
    have hdisjoint : Disjoint (Finset.Ico a.addr a.stop) covered := by
      refine Finset.disjoint_left.mpr fun x hx hin => ?_
      obtain ⟨e, he, hex⟩ := (hcovers x).mp hin
      exact ha e he x ((hhas x).mp hx) hex
    refine ⟨Finset.Ico a.addr a.stop ∪ covered, ?_, fun x => ?_⟩
    · rw [Finset.card_union_of_disjoint hdisjoint, Nat.card_Ico, hcard, total_cons, Extent.stop,
        Nat.add_sub_cancel_left]
    · rw [Finset.mem_union, hhas, hcovers, covers_cons]

/-- Extents that share no address take no more room than there is, in whatever order they come. -/
theorem total_le_of_apart (h : es.Pairwise Apart) (hw : ∀ e ∈ es, lo ≤ e.addr ∧ e.stop ≤ hi) :
    total es ≤ hi - lo := by
  obtain ⟨covered, hcard, hcovers⟩ := exists_card_eq_total h
  rw [← hcard, ← Nat.card_Ico]
  refine Finset.card_le_card fun x hx => ?_
  obtain ⟨e, he, hlow, hup⟩ := (hcovers x).mp hx
  obtain ⟨hstart, hstop⟩ := hw e he
  exact Finset.mem_Ico.mpr ⟨hstart.trans hlow, Nat.lt_of_lt_of_le hup hstop⟩

/-- Spaced extents that fill all the room are a single one. -/
theorem eq_singleton_of_total (hs : Spaced es) (hw : ∀ e ∈ es, lo ≤ e.addr ∧ e.stop ≤ hi)
    (hlt : lo < hi) (ht : lo + total es = hi) : es = [⟨lo, hi - lo⟩] := by
  cases es with
  | nil =>
    simp only [total_nil] at ht
    omega
  | cons a es =>
    obtain ⟨hwa, hwes⟩ := List.forall_mem_cons.mp hw
    obtain ⟨ha, hes⟩ := List.pairwise_cons.mp hs
    simp only [total_cons, Extent.stop] at ht hwa
    cases es with
    | nil =>
      simp only [total_nil] at ht
      have haddr : a.addr = lo := by omega
      have hsize : a.size = hi - lo := by omega
      rw [← hsize, ← haddr]
    | cons b es =>
      have hroom := total_le (a.stop + 1) (Spaced.ordered hes)
        (fun e he => ⟨ha e he, (hwes e he).2⟩) (by
          have := ha b (by simp)
          have := (hwes b (by simp)).2
          simp only [Extent.stop] at *
          omega)
      simp only [Extent.stop] at hroom
      omega

end TgeCore.Library.Extents
