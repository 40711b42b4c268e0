import Mathlib.Algebra.Order.Field.Basic
import Mathlib.Algebra.Quaternion
import Mathlib.Tactic.FieldSimp
import Mathlib.Tactic.LinearCombination
import Mathlib.Tactic.Linarith

namespace TgeCore.Library

inductive Axis where
  | x | y | z
deriving DecidableEq

/-- In the order that makes a right-handed frame. -/
def Axis.next : Axis → Axis
  | .x => .y
  | .y => .z
  | .z => .x

theorem Axis.next_ne (c : Axis) : c.next ≠ c ∧ c.next.next ≠ c := by
  cases c <;> simp [Axis.next]

theorem Axis.next_ne_next (c : Axis) : c.next ≠ c.next.next := by
  cases c <;> simp [Axis.next]

theorem Axis.forall_iff {P : Axis → Prop} : (∀ c, P c) ↔ P .x ∧ P .y ∧ P .z :=
  ⟨fun h => ⟨h .x, h .y, h .z⟩, fun ⟨hx, hy, hz⟩ c => by cases c <;> assumption⟩

/-- What becomes of the axes: `m .x` is the column of the first, with its three numbers. -/
abbrev Columns (F : Type*) := Axis → Axis → F

variable {F : Type*}

section Vectors
variable [CommRing F]

def dot (a b : Axis → F) : F := a .x * b .x + a .y * b .y + a .z * b .z

def cross (a b : Axis → F) (r : Axis) : F := a r.next * b r.next.next - a r.next.next * b r.next

/-- The axes where they are. -/
def axes : Columns F := fun c r => if c = r then 1 else 0

def diagonal (m : Columns F) : F := m .x .x + m .y .y + m .z .z

theorem diagonal_eq (m : Columns F) (c : Axis) :
    diagonal m = m c c + m c.next c.next + m c.next.next c.next.next := by
  cases c <;> simp only [diagonal, Axis.next] <;> ring

/-- Some of the columns, and the axes in place of the others. -/
def patched (m : Columns F) (kept : Axis → Prop) [DecidablePred kept] : Columns F := fun c => if kept c then m c else axes c

/-- It is the only one of its kind, kept or not. -/
def OddOneOut (kept : Axis → Prop) (c : Axis) : Prop := ∀ d, d ≠ c → ¬(kept d ↔ kept c)

/-- With none that is odd all are kept or none is. -/
theorem all_or_none {kept : Axis → Prop} (hnone : ∀ c, ¬OddOneOut kept c) : (∀ c, kept c) ∨ ∀ c, ¬kept c := by
  simp only [OddOneOut, Axis.forall_iff, ne_eq, reduceCtorEq, not_true_eq_false, not_false_eq_true, false_imp_iff, true_imp_iff,
    true_and, and_true] at hnone ⊢
  grind

variable {m : Columns F} {kept : Axis → Prop} [DecidablePred kept]

theorem patched_kept {c : Axis} (hc : kept c) : patched m kept c = m c := if_pos hc

theorem patched_left {c : Axis} (hc : ¬kept c) : patched m kept c = axes c := if_neg hc

theorem patched_eq (hleft : ∀ c, ¬kept c → m c = axes c) : patched m kept = m := by
  funext c
  by_cases hc : kept c
  · exact patched_kept hc
  · rw [patched_left hc, hleft c hc]

end Vectors

section Rotation
variable [CommRing F]

/-- One of the four numbers of a quaternion. -/
inductive Coordinate where
  | re
  | im (c : Axis)
deriving DecidableEq

def coordinate (q : Quaternion F) : Coordinate → F
  | .re => q.re
  | .im .x => q.imI
  | .im .y => q.imJ
  | .im .z => q.imK

def turned (q : Quaternion F) : Columns F
  | .x, .x => 1 - 2 • (q.imJ * q.imJ + q.imK * q.imK)
  | .x, .y => 2 • (q.imI * q.imJ + q.re * q.imK)
  | .x, .z => 2 • (q.imI * q.imK - q.re * q.imJ)
  | .y, .x => 2 • (q.imI * q.imJ - q.re * q.imK)
  | .y, .y => 1 - 2 • (q.imI * q.imI + q.imK * q.imK)
  | .y, .z => 2 • (q.imJ * q.imK + q.re * q.imI)
  | .z, .x => 2 • (q.imI * q.imK + q.re * q.imJ)
  | .z, .y => 2 • (q.imJ * q.imK - q.re * q.imI)
  | .z, .z => 1 - 2 • (q.imI * q.imI + q.imJ * q.imJ)

/-- How much of the quaternion is across an axis. -/
def spread (q : Quaternion F) : Axis → F
  | .x => q.imJ * q.imJ + q.imK * q.imK
  | .y => q.imI * q.imI + q.imK * q.imK
  | .z => q.imI * q.imI + q.imJ * q.imJ

variable {p q : Quaternion F}

theorem turned_self (q : Quaternion F) (c : Axis) : turned q c c = 1 - 2 * spread q c := by
  cases c <;> simp only [turned, spread, nsmul_eq_mul, Nat.cast_ofNat]

theorem turned_one : turned (1 : Quaternion F) = axes := by
  funext c r
  cases c <;> cases r <;>
    simp [turned, axes, Quaternion.imI_one, Quaternion.imJ_one, Quaternion.imK_one]

theorem turned_smul {a : F} (ha : a * a = 1) (q : Quaternion F) : turned (a • q) = turned q := by
  have hproduct : ∀ b d : F, a * b * (a * d) = b * d := fun b d => by linear_combination b * d * ha
  funext c r
  cases c <;> cases r <;> simp [turned, hproduct]

/-- The columns are of length one for a unit quaternion, and for others where they are left alone. -/
theorem dot_turned_self (q : Quaternion F) (c : Axis) :
    dot (turned q c) (turned q c) = 1 + 4 * spread q c * (Quaternion.normSq q - 1) := by
  rw [Quaternion.normSq_def']
  cases c <;> simp only [dot, turned, spread] <;> ring

theorem turned_sub_cross (q : Quaternion F) (c r : Axis) :
    turned q c r - cross (turned q c.next) (turned q c.next.next) r =
      -4 * coordinate q (.im c) * coordinate q (.im r) * (Quaternion.normSq q - 1) := by
  rw [Quaternion.normSq_def']
  cases c <;> cases r <;> simp only [cross, turned, Axis.next, coordinate] <;> ring

/-- Each column is at right angles to the two others, to the right. -/
theorem turned_eq_cross (hq : Quaternion.normSq q = 1) (c : Axis) :
    turned q c = cross (turned q c.next) (turned q c.next.next) := by
  funext r
  have hsub := turned_sub_cross q c r
  rw [hq, sub_self, mul_zero] at hsub
  exact sub_eq_zero.mp hsub

/-- The volume that scaled columns span. -/
theorem dot_cross_turned (hq : Quaternion.normSq q = 1) (s t u : F) :
    dot (cross (fun r => turned q .x r * s) fun r => turned q .y r * t) (fun r => turned q .z r * u) = s * t * u := by
  have hunit := dot_turned_self q .z
  rw [hq, sub_self, mul_zero, add_zero] at hunit
  have hcross : ∀ r, cross (fun r => turned q .x r * s) (fun r => turned q .y r * t) r = turned q .z r * (s * t) := by
    intro r
    rw [turned_eq_cross hq .z]
    simp only [cross, Axis.next]
    ring
  simp only [dot, hcross] at hunit ⊢
  linear_combination s * t * u * hunit

/-- Two of the columns say what the third is. -/
theorem turned_congr (hp : Quaternion.normSq p = 1) (hq : Quaternion.normSq q = 1) {c : Axis}
    (hothers : ∀ d, d ≠ c → turned p d = turned q d) : turned p c = turned q c := by
  rw [turned_eq_cross hp, turned_eq_cross hq, hothers _ c.next_ne.1, hothers _ c.next_ne.2]

/-- Half a turn about an axis. -/
def halfTurn : Axis → Quaternion F
  | .x => ⟨0, 1, 0, 0⟩
  | .y => ⟨0, 0, 1, 0⟩
  | .z => ⟨0, 0, 0, 1⟩

theorem normSq_halfTurn (a : Axis) : Quaternion.normSq (halfTurn a : Quaternion F) = 1 := by
  rw [Quaternion.normSq_def']
  cases a <;> simp [halfTurn]

/-- What is turned by half about one of its axes keeps that one. -/
theorem turned_mul_halfTurn_self (q : Quaternion F) (a : Axis) :
    turned (q * halfTurn a) a = turned q a := by
  funext r
  cases a <;> cases r
  all_goals simp only [turned, Quaternion.re_mul, Quaternion.imI_mul, Quaternion.imJ_mul, Quaternion.imK_mul]
  all_goals simp only [halfTurn]
  all_goals ring

theorem turned_mul_halfTurn_add (q : Quaternion F) {a c : Axis} (hc : c ≠ a) (r : Axis) :
    turned (q * halfTurn a) c r + turned q c r = 2 * axes c r * (1 - Quaternion.normSq q) := by
  rw [Quaternion.normSq_def']
  cases a <;> cases c <;> first | exact absurd rfl hc | cases r
  all_goals simp only [turned, Quaternion.re_mul, Quaternion.imI_mul, Quaternion.imJ_mul, Quaternion.imK_mul]
  all_goals simp only [halfTurn, axes, reduceCtorEq, if_true, if_false]
  all_goals ring

/-- It has the two others the other way. -/
theorem turned_mul_halfTurn (hq : Quaternion.normSq q = 1) {a c : Axis} (hc : c ≠ a) (r : Axis) :
    turned (q * halfTurn a) c r = -turned q c r := by
  have hsum := turned_mul_halfTurn_add q hc r
  rw [hq, sub_self, mul_zero] at hsum
  exact eq_neg_of_add_eq_zero_left hsum

/-- Signs on the columns, with nothing turned inside out, are those of another rotation. -/
theorem turned_signs (hq : Quaternion.normSq q = 1) {sign : Axis → F} (hsign : ∀ c, sign c = 1 ∨ sign c = -1)
    (hproduct : sign .x * sign .y * sign .z = 1) :
    ∃ p : Quaternion F, Quaternion.normSq p = 1 ∧ ∀ c r, turned p c r = sign c * turned q c r := by
  have hturned : ∀ a, sign a = 1 → (∀ c, c ≠ a → sign c = -1) →
      ∃ p : Quaternion F, Quaternion.normSq p = 1 ∧ ∀ c r, turned p c r = sign c * turned q c r := by
    intro a ha hothers
    refine ⟨q * halfTurn a, by rw [map_mul, hq, normSq_halfTurn, one_mul], fun c r => ?_⟩
    by_cases hc : c = a
    · rw [hc, turned_mul_halfTurn_self, ha, one_mul]
    · rw [turned_mul_halfTurn hq hc, hothers c hc, neg_one_mul]
  rcases hsign .x with hx | hx <;> rcases hsign .y with hy | hy
  · have hz : sign .z = 1 := by linear_combination hproduct - sign .z * sign .y * hx - sign .z * hy
    refine ⟨q, hq, fun c r => ?_⟩
    cases c
    · rw [hx, one_mul]
    · rw [hy, one_mul]
    · rw [hz, one_mul]
  · have hz : sign .z = -1 := by linear_combination -hproduct + sign .z * sign .y * hx + sign .z * hy
    exact hturned .x hx fun c hc => by cases c <;> first | exact absurd rfl hc | assumption
  · have hz : sign .z = -1 := by linear_combination -hproduct + sign .z * sign .y * hx - sign .z * hy
    exact hturned .y hy fun c hc => by cases c <;> first | exact absurd rfl hc | assumption
  · have hz : sign .z = 1 := by linear_combination hproduct - sign .z * sign .y * hx + sign .z * hy
    exact hturned .z hz fun c hc => by cases c <;> first | exact absurd rfl hc | assumption

end Rotation

section Extract
variable [CommRing F]

/-- From a rotation's columns, four times a coordinate of its quaternion by the whole of it. -/
def outer (m : Columns F) : Coordinate → Quaternion F
  | .re => ⟨1 + m .x .x + m .y .y + m .z .z, m .y .z - m .z .y, m .z .x - m .x .z, m .x .y - m .y .x⟩
  | .im .x => ⟨m .y .z - m .z .y, 1 + m .x .x - m .y .y - m .z .z, m .x .y + m .y .x, m .z .x + m .x .z⟩
  | .im .y => ⟨m .z .x - m .x .z, m .x .y + m .y .x, 1 - m .x .x + m .y .y - m .z .z, m .y .z + m .z .y⟩
  | .im .z => ⟨m .x .y - m .y .x, m .z .x + m .x .z, m .y .z + m .z .y, 1 - m .x .x - m .y .y + m .z .z⟩

/-- The number of it that is four times a square. -/
def pivot (m : Columns F) (k : Coordinate) : F := coordinate (outer m k) k

theorem pivot_re (m : Columns F) : pivot m .re = 1 + diagonal m := by
  simp only [pivot, coordinate, outer, diagonal]
  ring

theorem pivot_im (m : Columns F) (c : Axis) : pivot m (.im c) = 1 + 2 * m c c - diagonal m := by
  cases c <;> simp only [pivot, coordinate, outer, diagonal] <;> ring

theorem outer_turned {q : Quaternion F} (hq : Quaternion.normSq q = 1) (k : Coordinate) :
    outer (turned q) k = (4 * coordinate q k) • q := by
  rw [Quaternion.normSq_def'] at hq
  rcases k with _ | c
  · ext <;> simp only [outer, turned, coordinate, Quaternion.re_smul, Quaternion.imI_smul, Quaternion.imJ_smul,
      Quaternion.imK_smul, smul_eq_mul]
    · linear_combination -4 * hq
    · ring
    · ring
    · ring
  · cases c <;> ext <;> simp only [outer, turned, coordinate, Quaternion.re_smul, Quaternion.imI_smul, Quaternion.imJ_smul,
      Quaternion.imK_smul, smul_eq_mul] <;> ring

theorem coordinate_smul (a : F) (q : Quaternion F) (k : Coordinate) : coordinate (a • q) k = a * coordinate q k := by
  cases k with
  | re => rfl
  | im c => cases c <;> rfl

end Extract

section Field
variable [Field F]

/-- The quaternion that is read from columns by one coordinate, with the root of that coordinate's number. -/
def extract (root : F) (m : Columns F) (k : Coordinate) : Quaternion F := (1 / (root + root)) • outer m k

/-- The coordinate with the greatest number, and the real one where it is as great as any. -/
structure Biggest [LE F] (m : Columns F) (k : Coordinate) : Prop where
  le : ∀ j, pivot m j ≤ pivot m k
  re : (∀ j, pivot m j ≤ pivot m .re) → k = .re

variable [LinearOrder F] [IsStrictOrderedRing F] {root : F} {m : Columns F} {k : Coordinate} {p q : Quaternion F}

theorem Biggest.pos (hk : Biggest m k) : 0 < pivot m k := by
  have hre := hk.le .re
  have hx := hk.le (.im .x)
  have hy := hk.le (.im .y)
  have hz := hk.le (.im .z)
  rw [pivot_re] at hre
  rw [pivot_im] at hx hy hz
  have hdiag : diagonal m = m .x .x + m .y .y + m .z .z := rfl
  linarith

theorem coordinate_extract (hroot : root * root = pivot m k) (hpos : 0 < pivot m k) :
    2 * coordinate (extract root m k) k = root := by
  have hne : root ≠ 0 := left_ne_zero_of_mul (hroot ▸ hpos.ne')
  rw [extract, coordinate_smul, show coordinate (outer m k) k = pivot m k from rfl, ← hroot]
  field_simp
  exact one_add_one_eq_two.symm

/-- A unit quaternion that was read is of the same numbers as what it was read from. -/
theorem outer_extract (hroot : root * root = pivot m k) (hpos : 0 < pivot m k)
    (hunit : Quaternion.normSq (extract root m k) = 1) : outer (turned (extract root m k)) k = outer m k := by
  have hne : root ≠ 0 := left_ne_zero_of_mul (hroot ▸ hpos.ne')
  have hscalar : 4 * coordinate (extract root m k) k * (1 / (root + root)) = 1 := by
    rw [show 4 * coordinate (extract root m k) k = 2 * (2 * coordinate (extract root m k) k) by ring,
      coordinate_extract hroot hpos]
    field_simp
    exact one_add_one_eq_two.symm
  rw [outer_turned hunit]
  nth_rewrite 2 [extract]
  rw [smul_smul, hscalar, one_smul]

/-- The quaternion of a rotation is read from it, but for the sign. -/
theorem turned_extract (hq : Quaternion.normSq q = 1) (hm : m = turned q) (hroot : root * root = pivot m k)
    (hpos : 0 < pivot m k) : turned (extract root m k) = turned q := by
  subst hm
  have hpivot : root * root = 4 * coordinate q k * coordinate q k := by
    rw [hroot, pivot, outer_turned hq, coordinate_smul]
  have hne : root ≠ 0 := left_ne_zero_of_mul (hroot ▸ hpos.ne')
  have hsquare : 1 / (root + root) * (4 * coordinate q k) * (1 / (root + root) * (4 * coordinate q k)) = 1 := by
    field_simp
    linear_combination -4 * hpivot
  rw [extract, outer_turned hq, smul_smul, turned_smul hsquare]

theorem spread_nonneg (q : Quaternion F) (c : Axis) : 0 ≤ spread q c := by
  cases c <;> exact add_nonneg (mul_self_nonneg _) (mul_self_nonneg _)

theorem neg_one_le_turned_self (hq : Quaternion.normSq q = 1) (c : Axis) : -1 ≤ turned q c c := by
  rw [Quaternion.normSq_def'] at hq
  rw [turned_self]
  cases c <;> simp only [spread] <;> linarith [sq_nonneg q.re, sq_nonneg q.imI, sq_nonneg q.imJ, sq_nonneg q.imK]

/-- An axis that nothing of the quaternion is across stays where it is. -/
theorem turned_of_spread {c : Axis} (hc : spread q c = 0) : turned q c = axes c := by
  funext r
  cases c <;> obtain ⟨hfirst, hsecond⟩ := mul_self_add_mul_self_eq_zero.mp hc <;> cases r <;>
    simp [turned, axes, hfirst, hsecond]

theorem turned_of_self {c : Axis} (hc : turned q c c = 1) : turned q c = axes c := by
  rw [turned_self] at hc
  exact turned_of_spread (by linarith)

theorem spread_of_pair {c d : Axis} (hc : spread q c = 0) (hd : spread q d = 0) (hne : c ≠ d) (e : Axis) :
    spread q e = 0 := by
  cases c <;> cases d <;> first
    | exact absurd rfl hne
    | (obtain ⟨hfirst, hsecond⟩ := mul_self_add_mul_self_eq_zero.mp hc
       obtain ⟨hthird, hfourth⟩ := mul_self_add_mul_self_eq_zero.mp hd
       cases e <;> simp [spread, *])

/-- A column that is one of another rotation's is left alone, or the quaternion is a unit. -/
theorem spread_or_unit (hp : Quaternion.normSq p = 1) {c : Axis} (hc : turned q c = turned p c) :
    spread q c = 0 ∨ Quaternion.normSq q = 1 := by
  have hq := dot_turned_self q c
  rw [hc, dot_turned_self, hp, sub_self, mul_zero, add_zero] at hq
  have hzero : spread q c * (Quaternion.normSq q - 1) = 0 := by linarith
  exact (mul_eq_zero.mp hzero).imp_right sub_eq_zero.mp

variable {kept : Axis → Prop} [DecidablePred kept]

/-- With one number of `outer` the same and two on the diagonal, the third is the same. -/
theorem diagonal_of_outer {m' : Columns F} (houter : outer m k = outer m' k) {c : Axis}
    (hothers : ∀ d, d ≠ c → m d = m' d) : m c c = m' c c := by
  have hpivot : pivot m k = pivot m' k := by rw [pivot, pivot, houter]
  have hfirst := congrFun (hothers _ c.next_ne.1) c.next
  have hsecond := congrFun (hothers _ c.next_ne.2) c.next.next
  have hdiag := diagonal_eq m c
  have hdiag' := diagonal_eq m' c
  rcases k with _ | d
  · rw [pivot_re, pivot_re] at hpivot
    linarith
  · rw [pivot_im, pivot_im] at hpivot
    by_cases hd : d = c
    · subst hd
      linarith
    · have hdiagonal := congrFun (hothers d hd) d
      linarith

variable (hp : Quaternion.normSq p = 1) (hroot : root * root = pivot (patched (turned p) kept) k)
  (hk : Biggest (patched (turned p) kept) k) {c : Axis}
include hp hroot hk

/-- With one axis left out the other two come back if it was at its place. -/
theorem extract_hole (hc : ¬kept c) (hothers : ∀ d, d ≠ c → kept d) :
    (∀ d, kept d → turned (extract root (patched (turned p) kept) k) d = turned p d) ↔ turned p c = axes c := by
  constructor
  · intro hsame
    have hpair : ∀ d, d ≠ c → turned (extract root (patched (turned p) kept) k) d = turned p d :=
      fun d hd => hsame d (hothers d hd)
    have hunit : Quaternion.normSq (extract root (patched (turned p) kept) k) = 1 → turned p c = axes c := by
      intro hunit
      rw [← turned_congr hunit hp hpair]
      apply turned_of_self
      rw [diagonal_of_outer (outer_extract hroot hk.pos hunit) (c := c)]
      · rw [patched_left hc, axes, if_pos rfl]
      · intro d hd
        rw [hpair d hd, patched_kept (hothers d hd)]
    rcases spread_or_unit hp (hpair _ c.next_ne.1) with hfirst | hunit'
    · rcases spread_or_unit hp (hpair _ c.next_ne.2) with hsecond | hunit'
      · have hnone := spread_of_pair hfirst hsecond c.next_ne_next
        have haxes : ∀ d, d ≠ c → turned p d = turned 1 d := by
          intro d hd
          rw [← hpair d hd, turned_of_spread (hnone d), turned_one]
        rw [turned_congr hp (map_one _) haxes, turned_one]
      · exact hunit hunit'
    · exact hunit hunit'
  · intro hplace d _
    refine congrFun (turned_extract hp (patched_eq fun e he => ?_) hroot hk.pos) d
    rcases eq_or_ne e c with rfl | hne
    · exact hplace
    · exact absurd (hothers e hne) he

/-- With two axes left out the third comes back if it was at its place. -/
theorem extract_lone (hc : kept c) (hothers : ∀ d, d ≠ c → ¬kept d) :
    (∀ d, kept d → turned (extract root (patched (turned p) kept) k) d = turned p d) ↔ turned p c = axes c := by
  have honly : ∀ d, kept d → d = c := fun d hd => by_contra fun hne => hothers d hne hd
  have hleft : ∀ d, d ≠ c → patched (turned p) kept d d = 1 := by
    intro d hd
    rw [patched_left (hothers d hd), axes, if_pos rfl]
  have hself : patched (turned p) kept c c = turned p c c := by rw [patched_kept hc]
  have hdiag : diagonal (patched (turned p) kept) = turned p c c + 1 + 1 := by
    rw [diagonal_eq _ c, hself, hleft _ c.next_ne.1, hleft _ c.next_ne.2]
  have hlow := neg_one_le_turned_self hp c
  -- What is left at the axes makes the real coordinate the greatest.
  have hre : k = .re := by
    apply hk.re
    rintro (_ | d)
    · exact le_rfl
    · rw [pivot_im, pivot_re, hdiag]
      rcases eq_or_ne d c with rfl | hd
      · rw [hself]
        linarith
      · rw [hleft d hd]
        linarith
  constructor
  · intro hsame
    have hback := hsame c hc
    rcases spread_or_unit hp hback with hspread | hunit
    · rw [← hback, turned_of_spread hspread]
    · have hpivot : pivot _ k = pivot _ k := congrArg (coordinate · k) (outer_extract hroot hk.pos hunit)
      have hdiagonal := congrFun hback c
      rw [hre, pivot_re, pivot_re, hdiag, diagonal_eq _ c, ← hre, hdiagonal, turned_self _ c.next,
        turned_self _ c.next.next] at hpivot
      -- The two others are at their places, since no number of the diagonal is more than one.
      have hnext := spread_nonneg (extract root (patched (turned p) kept) k) c.next
      have hlast := spread_nonneg (extract root (patched (turned p) kept) k) c.next.next
      have hfirst : spread (extract root (patched (turned p) kept) k) c.next = 0 := by linarith
      have hsecond : spread (extract root (patched (turned p) kept) k) c.next.next = 0 := by linarith
      have hnone := spread_of_pair hfirst hsecond c.next_ne_next c
      rw [← hback, turned_of_spread hnone]
  · intro hplace d hd
    obtain rfl := honly d hd
    have haxes : patched (turned p) kept = turned 1 := by
      funext e
      rw [turned_one]
      rcases eq_or_ne e d with rfl | he
      · rw [patched_kept hd, hplace]
      · exact patched_left (hothers e he)
    rw [turned_extract (map_one _) haxes hroot hk.pos, turned_one, hplace]

theorem extract_odd (hodd : OddOneOut kept c) :
    (∀ d, kept d → turned (extract root (patched (turned p) kept) k) d = turned p d) ↔ turned p c = axes c := by
  by_cases hc : kept c
  · exact extract_lone hp hroot hk hc fun d hd hkept => hodd d hd (iff_of_true hkept hc)
  · exact extract_hole hp hroot hk hc fun d hd => by_contra fun hleft => hodd d hd (iff_of_false hleft hc)

/-- What was left in comes back if no axis is odd, or if the one that is was at its place. -/
theorem extract_patched_iff :
    (∀ c, kept c → turned (extract root (patched (turned p) kept) k) c = turned p c) ↔
      ∀ c, OddOneOut kept c → turned p c = axes c := by
  constructor
  · intro hsame c hodd
    exact (extract_odd hp hroot hk hodd).mp hsame
  · intro hplaces
    by_cases hsome : ∃ c, OddOneOut kept c
    · obtain ⟨c, hodd⟩ := hsome
      exact (extract_odd hp hroot hk hodd).mpr (hplaces c hodd)
    · rcases all_or_none (not_exists.mp hsome) with hall | hnone
      · intro c _
        exact congrFun (turned_extract hp (patched_eq fun d hd => absurd (hall d) hd) hroot hk.pos) c
      · intro c hc
        exact absurd hc (hnone c)

end Field

end TgeCore.Library
