import Mathlib.Analysis.Real.Sqrt
import Mathlib.Tactic.IntervalCases
import TgeCore.Math.Transform

namespace TgeCore.Math
open Library

/-- The matrices have the same sixteen numbers. -/
def SameMatrix {F : Type} (a b : Mat4 F) : Prop := ∀ col < 4, ∀ row < 4, a col row = b col row

theorem Vec3.along_ext {F : Type} {v w : Vec3 F} (h : ∀ c, v.along c = w.along c) : v = w := by
  have hx : v.x = w.x := h .x
  have hy : v.y = w.y := h .y
  have hz : v.z = w.z := h .z
  cases v
  cases w
  simp_all

section Signs
variable {F : Type} [Field F]

theorem determinant_zero {scale : Vec3 F} {c : Axis} (hc : scale.along c = 0) : scale.x * scale.y * scale.z = 0 := by
  cases c <;> simp only [Vec3.along] at hc <;> simp [hc]

/-- An axis without a scale, or the first if there is none. -/
def IsFree (scale : Vec3 F) (free : Axis) : Prop := scale.along free = 0 ∨ free = .x ∧ ∀ c, scale.along c ≠ 0

theorem exists_free (scale : Vec3 F) : ∃ free, IsFree scale free := by
  by_cases hall : ∀ c, scale.along c ≠ 0
  · exact ⟨.x, Or.inr ⟨rfl, hall⟩⟩
  · obtain ⟨free, hfree⟩ := not_forall.mp hall
    exact ⟨free, Or.inl (not_not.mp hfree)⟩

variable [LinearOrder F]

/-- One for zero too, as in FromMatrix. -/
def signOf (s : F) : F := if s < 0 then -1 else 1

def signs (scale : Vec3 F) : F := signOf scale.x * signOf scale.y * signOf scale.z

/-- The scale that is read back from a transform's matrix. -/
def recovered (scale : Vec3 F) : Vec3 F := ⟨signOf (scale.x * scale.y * scale.z) * |scale.x|, |scale.y|, |scale.z|⟩

theorem signOf_cases (s : F) : signOf s = 1 ∨ signOf s = -1 := by
  unfold signOf
  split
  · exact Or.inr rfl
  · exact Or.inl rfl

theorem signOf_zero : signOf (0 : F) = 1 := if_neg (lt_irrefl 0)

theorem signOf_mul_self (s : F) : signOf s * signOf s = 1 := by
  rcases signOf_cases s with h | h
  · rw [h, one_mul]
  · rw [h, neg_mul_neg, one_mul]

theorem signs_mul_self (scale : Vec3 F) : signs scale * signs scale = 1 := by
  have hx := signOf_mul_self scale.x
  have hy := signOf_mul_self scale.y
  have hz := signOf_mul_self scale.z
  unfold signs
  linear_combination signOf scale.y * signOf scale.y * signOf scale.z * signOf scale.z * hx +
    signOf scale.z * signOf scale.z * hy + hz

theorem signs_eq (scale : Vec3 F) (c : Axis) : signs scale =
    signOf (scale.along c) * signOf (scale.along c.next) * signOf (scale.along c.next.next) := by
  cases c <;> simp only [signs, Vec3.along, Axis.next] <;> ring

/-- The signs that FromMatrix gives to the columns that it normalizes. The free one is for the
determinant: the code has it on X, and a column that is not normalized can have any. -/
def columnSigns (scale : Vec3 F) (free c : Axis) : F :=
  if c = free then signOf (scale.along c) * signs scale else signOf (scale.along c)

theorem columnSigns_cases (scale : Vec3 F) (free c : Axis) :
    columnSigns scale free c = 1 ∨ columnSigns scale free c = -1 := by
  apply mul_self_eq_one_iff.mp
  unfold columnSigns
  split
  · linear_combination signs scale * signs scale * signOf_mul_self (scale.along c) + signs_mul_self scale
  · exact signOf_mul_self _

theorem columnSigns_product (scale : Vec3 F) (free : Axis) :
    columnSigns scale free .x * columnSigns scale free .y * columnSigns scale free .z = 1 := by
  rw [← signs_mul_self scale]
  cases free <;> simp [columnSigns, signs, Vec3.along] <;> ring

/-- Alone among its kind, an axis has the product of all signs. -/
theorem columnSigns_odd {scale : Vec3 F} {free c : Axis} (hfree : IsFree scale free)
    (hodd : OddOneOut (fun d => scale.along d ≠ 0) c) : columnSigns scale free c = signs scale := by
  rcases hfree with hzero | ⟨-, hall⟩
  · rcases eq_or_ne c free with rfl | hne
    · rw [columnSigns, if_pos rfl, hzero, signOf_zero, one_mul]
    · have hc : scale.along c ≠ 0 := fun hc => hodd free hne.symm (iff_of_false (not_not.mpr hzero) (not_not.mpr hc))
      have hothers : ∀ d, d ≠ c → signOf (scale.along d) = 1 := by
        intro d hd
        have hdzero : scale.along d = 0 := by_contra fun h => hodd d hd (iff_of_true h hc)
        rw [hdzero, signOf_zero]
      rw [columnSigns, if_neg hne, signs_eq scale c, hothers _ c.next_ne.1, hothers _ c.next_ne.2, mul_one, mul_one]
  · exact absurd (iff_of_true (hall _) (hall _)) (hodd c.next c.next_ne.1)

variable [IsStrictOrderedRing F]

theorem signOf_mul_abs (s : F) : signOf s * |s| = s := by
  unfold signOf
  split
  · rename_i hs
    rw [abs_of_neg hs, neg_mul_neg, one_mul]
  · rename_i hs
    rw [abs_of_nonneg (not_lt.mp hs), one_mul]

theorem signOf_mul {s t : F} (hs : s ≠ 0) (ht : t ≠ 0) : signOf (s * t) = signOf s * signOf t := by
  unfold signOf
  rcases lt_or_gt_of_ne hs with hs | hs <;> rcases lt_or_gt_of_ne ht with ht | ht
  · rw [if_neg (mul_pos_of_neg_of_neg hs ht).le.not_gt, if_pos hs, if_pos ht, neg_mul_neg, one_mul]
  · rw [if_pos (mul_neg_of_neg_of_pos hs ht), if_pos hs, if_neg ht.le.not_gt, mul_one]
  · rw [if_pos (mul_neg_of_pos_of_neg hs ht), if_neg hs.le.not_gt, if_pos ht, one_mul]
  · rw [if_neg (mul_pos hs ht).le.not_gt, if_neg hs.le.not_gt, if_neg ht.le.not_gt, one_mul]

/-- The determinant's sign is that of all three, if it is not zero. -/
theorem signOf_determinant {scale : Vec3 F} (hall : ∀ c, scale.along c ≠ 0) :
    signOf (scale.x * scale.y * scale.z) = signs scale := by
  have hx : scale.x ≠ 0 := hall .x
  have hy : scale.y ≠ 0 := hall .y
  have hz : scale.z ≠ 0 := hall .z
  rw [signs, signOf_mul (mul_ne_zero hx hy) hz, signOf_mul hx hy]

theorem columnSigns_kept {scale : Vec3 F} {free c : Axis} (hfree : IsFree scale free) (hc : scale.along c ≠ 0) :
    columnSigns scale free c * (recovered scale).along c = scale.along c := by
  rcases hfree with hzero | ⟨rfl, hall⟩
  · have hne : c ≠ free := fun h => hc (h ▸ hzero)
    have habs : (recovered scale).along c = |scale.along c| := by
      cases c <;> simp only [recovered, Vec3.along, determinant_zero hzero, signOf_zero, one_mul]
    rw [columnSigns, if_neg hne, habs, signOf_mul_abs]
  · rcases eq_or_ne c .x with rfl | hne
    · simp only [columnSigns, if_true, recovered, Vec3.along, signOf_determinant hall]
      linear_combination signOf scale.x * |scale.x| * signs_mul_self scale + signOf_mul_abs scale.x
    · have habs : (recovered scale).along c = |scale.along c| := by
        cases c
        · exact absurd rfl hne
        · rfl
        · rfl
      rw [columnSigns, if_neg hne, habs, signOf_mul_abs]

theorem recovered_ne_zero (scale : Vec3 F) (c : Axis) : (recovered scale).along c ≠ 0 ↔ scale.along c ≠ 0 := by
  have hsign : signOf (scale.x * scale.y * scale.z) ≠ 0 := by
    rcases signOf_cases (scale.x * scale.y * scale.z) with h | h <;> rw [h] <;> norm_num
  cases c
  · exact (mul_ne_zero_iff.trans (and_iff_right hsign)).trans abs_ne_zero
  · exact abs_ne_zero
  · exact abs_ne_zero

/-- The rotation whose matrix FromMatrix has in the columns that it can normalize. -/
theorem exists_recovered {q : Quat F} (hq : Quaternion.normSq q = 1) (scale : Vec3 F) :
    ∃ p : Quat F, Quaternion.normSq p = 1 ∧
      (∀ c, scale.along c ≠ 0 → ∀ r, turned p c r * (recovered scale).along c = turned q c r * scale.along c) ∧
      ∀ c, OddOneOut (fun d => scale.along d ≠ 0) c → ∀ r, turned p c r = signs scale * turned q c r := by
  obtain ⟨free, hfree⟩ := exists_free scale
  obtain ⟨p, hp, hturned⟩ := turned_signs hq (columnSigns_cases scale free) (columnSigns_product scale free)
  refine ⟨p, hp, fun c hc r => ?_, fun c hodd r => ?_⟩
  · rw [hturned, mul_right_comm, columnSigns_kept hfree hc, mul_comm]
  · rw [hturned, columnSigns_odd hfree hodd]

end Signs

/-- What is read back from a transform's matrix makes that matrix again. -/
def Lossless {F : Type} [Field F] [LinearOrder F] (glm : GlmMatrices F) (t : CTransform F) : Prop :=
  SameMatrix ((CTransform.fromMatrix glm (t.toMatrix glm)).toMatrix glm) (t.toMatrix glm)

/-- An axis that is alone in having a scale, or in having none, is turned to where it was,
or to the other end where the scale has an odd number of negative components. -/
def Recoverable {F : Type} [Field F] [LinearOrder F] (t : CTransform F) : Prop :=
  ∀ c, OddOneOut (fun d => t.scale.along d ≠ 0) c → ∀ r, signs t.scale * turned t.rotation c r = axes c r

/-- In particular the matrix is made again from any scale without a zero. -/
theorem recoverable_of_scaled {F : Type} [Field F] [LinearOrder F] {t : CTransform F}
    (hall : ∀ c, t.scale.along c ≠ 0) : Recoverable t :=
  fun c hodd => absurd (iff_of_true (hall _) (hall _)) (hodd c.next c.next_ne.1)

section Cast
variable {F : Type} [Field F] [LinearOrder F] [IsStrictOrderedRing F] {m : Mat3 F}

theorem biggest_spec (m : Mat3 F) : Biggest m (biggest m).1 ∧ (biggest m).2 + 1 = pivot m (biggest m).1 := by
  have hdiag : diagonal m = m .x .x + m .y .y + m .z .z := rfl
  -- The search compares the four numbers, each one less than its pivot.
  have hle : ∀ k, (∀ j, pivot m j ≤ pivot m k) ↔ pivot m .re ≤ pivot m k ∧ pivot m (.im .x) ≤ pivot m k ∧
      pivot m (.im .y) ≤ pivot m k ∧ pivot m (.im .z) ≤ pivot m k := by
    intro k
    constructor
    · exact fun h => ⟨h _, h _, h _, h _⟩
    · rintro ⟨hre, hx, hy, hz⟩ (_ | c)
      · exact hre
      · cases c <;> assumption
  refine ⟨⟨?_, ?_⟩, ?_⟩
  · rw [hle]
    simp only [biggest, gt_iff_lt]
    split_ifs <;> simp only [pivot_re, pivot_im] <;> refine ⟨?_, ?_, ?_, ?_⟩ <;> linarith
  · intro h
    rw [hle] at h
    simp only [pivot_re, pivot_im] at h
    obtain ⟨-, hx, hy, hz⟩ := h
    simp only [biggest, gt_iff_lt]
    split_ifs <;> first | rfl | (exfalso; linarith)
  · simp only [biggest, gt_iff_lt]
    split_ifs <;> simp only [pivot_re, pivot_im] <;> linarith

theorem quatCastFormula_eq {sqrt : F → F} {root : F} (hsqrt : sqrt (pivot m (biggest m).1) = root)
    (hroot : root * root = pivot m (biggest m).1) : quatCastFormula sqrt m = extract root m (biggest m).1 := by
  have hne : root ≠ 0 := left_ne_zero_of_mul (hroot ▸ (biggest_spec m).1.pos.ne')
  have hmult : 0.25 / (root * 0.5) = 1 / (root + root) := by
    field_simp
    norm_num
  have hval : root * 0.5 = 1 / (root + root) * pivot m (biggest m).1 := by
    rw [← hroot]
    field_simp
    norm_num
  simp only [quatCastFormula, (biggest_spec m).2, hsqrt, hmult, extract]
  rw [hval]
  generalize (biggest m).1 = k
  rcases k with _ | c
  · ext
    all_goals simp only [Quaternion.re_smul, Quaternion.imI_smul, Quaternion.imJ_smul, Quaternion.imK_smul]
    all_goals simp only [outer, pivot, coordinate, smul_eq_mul, mul_comm]
  · cases c <;> ext
    all_goals simp only [Quaternion.re_smul, Quaternion.imI_smul, Quaternion.imJ_smul, Quaternion.imK_smul]
    all_goals simp only [outer, pivot, coordinate, smul_eq_mul, mul_comm]

end Cast

theorem normalizedBasis_columns {F : Type} [Field F] [LinearOrder F] (glm : GlmMatrices F) (scale a b v : Vec3 F) :
    normalizedBasis glm scale a b v .x = (if scale.x ≠ 0 then (glm.divide a scale.x).along else glm.mat3 1 .x) ∧
    normalizedBasis glm scale a b v .y = (if scale.y ≠ 0 then (glm.divide b scale.y).along else glm.mat3 1 .y) ∧
    normalizedBasis glm scale a b v .z = (if scale.z ≠ 0 then (glm.divide v scale.z).along else glm.mat3 1 .z) := by
  unfold normalizedBasis
  split_ifs <;> simp [Function.update]

/-- What T * R * S is. -/
def placed {F : Type} [Field F] (t : CTransform F) : Mat4 F := fun col row =>
  if row = 3 then (if col = 3 then 1 else 0)
  else if col = 3 then t.position.along (axisOf row)
  else turned t.rotation (axisOf col) (axisOf row) * t.scale.along (axisOf col)

theorem placed_same_iff (t u : CTransform ℝ) : SameMatrix (placed t) (placed u) ↔
    t.position = u.position ∧ ∀ c r, turned t.rotation c r * t.scale.along c = turned u.rotation c r * u.scale.along c := by
  have hindex : ∀ c : Axis, ∃ col < 3, axisOf col = c := by
    rintro (_ | _ | _)
    · exact ⟨0, by decide, rfl⟩
    · exact ⟨1, by decide, rfl⟩
    · exact ⟨2, by decide, rfl⟩
  constructor
  · intro hsame
    have hposition : ∀ r, t.position.along r = u.position.along r := by
      intro r
      obtain ⟨row, hrow, rfl⟩ := hindex r
      have h := hsame 3 (by decide) row (by omega)
      simpa only [placed, if_neg hrow.ne, if_true] using h
    refine ⟨Vec3.along_ext hposition, fun c r => ?_⟩
    obtain ⟨col, hcol, rfl⟩ := hindex c
    obtain ⟨row, hrow, rfl⟩ := hindex r
    have h := hsame col (by omega) row (by omega)
    simpa only [placed, if_neg hrow.ne, if_neg hcol.ne] using h
  · rintro ⟨hposition, hbasis⟩ col _ row _
    simp only [placed, hposition, hbasis]

section Decompose
variable {glm : GlmMatrices ℝ} (hglm : glm.Documented Real.sqrt)
include hglm

theorem toMatrix_placed (t : CTransform ℝ) : SameMatrix (t.toMatrix glm) (placed t) := by
  intro col hcol row hrow
  interval_cases col <;> interval_cases row <;>
    simp [CTransform.toMatrix, translate, scale, quaternionToMatrix, hglm.multiply, hglm.translate, hglm.scale,
      hglm.mat4, hglm.toMat4, widen, placed, axisOf, Vec3.along]

theorem toMatrix_same_iff (t u : CTransform ℝ) : SameMatrix (t.toMatrix glm) (u.toMatrix glm) ↔
    t.position = u.position ∧ ∀ c r, turned t.rotation c r * t.scale.along c = turned u.rotation c r * u.scale.along c := by
  rw [← placed_same_iff]
  have ht := toMatrix_placed hglm t
  have hu := toMatrix_placed hglm u
  constructor <;> intro h col hcol row hrow
  · rw [← ht col hcol row hrow, h col hcol row hrow, hu col hcol row hrow]
  · rw [ht col hcol row hrow, h col hcol row hrow, hu col hcol row hrow]

theorem vec3_position (t : CTransform ℝ) : (t.toMatrix glm).vec3 3 = t.position := by
  apply Vec3.along_ext
  rintro (_ | _ | _)
  · exact toMatrix_placed hglm t 3 (by decide) 0 (by decide)
  · exact toMatrix_placed hglm t 3 (by decide) 1 (by decide)
  · exact toMatrix_placed hglm t 3 (by decide) 2 (by decide)

theorem vec3_basis (t : CTransform ℝ) (col : Nat) (hcol : col < 3) (r : Axis) :
    ((t.toMatrix glm).vec3 col).along r = turned t.rotation (axisOf col) r * t.scale.along (axisOf col) := by
  have hentry := toMatrix_placed hglm t col (by omega)
  simp only [placed, if_neg hcol.ne] at hentry
  cases r
  · exact hentry 0 (by decide)
  · exact hentry 1 (by decide)
  · exact hentry 2 (by decide)

theorem dot_along (a b : Vec3 ℝ) : glm.dot a b = Library.dot a.along b.along := hglm.dot a b

theorem cross_along (a b : Vec3 ℝ) : (glm.cross a b).along = Library.cross a.along b.along := by
  rw [hglm.cross]
  funext r
  cases r <;> simp only [Vec3.along, Library.cross, Axis.next, mul_comm]

/-- A column's length is the scale's on its axis, but for the sign. -/
theorem length_basis {q : Quat ℝ} (hq : Quaternion.normSq q = 1) {v : Vec3 ℝ} {c : Axis} {s : ℝ}
    (hv : ∀ r, v.along r = turned q c r * s) : glm.length v = |s| := by
  have hunit := dot_turned_self q c
  rw [hq, sub_self, mul_zero, add_zero] at hunit
  have hsquare : v.x * v.x + v.y * v.y + v.z * v.z = Library.dot v.along v.along := rfl
  rw [hglm.length, ← Real.sqrt_mul_self_eq_abs, hsquare, funext hv]
  congr 1
  simp only [Library.dot] at hunit ⊢
  linear_combination s * s * hunit

theorem determinant_basis {q : Quat ℝ} (hq : Quaternion.normSq q = 1) {a b v s : Vec3 ℝ}
    (ha : ∀ r, a.along r = turned q .x r * s.x) (hb : ∀ r, b.along r = turned q .y r * s.y)
    (hv : ∀ r, v.along r = turned q .z r * s.z) : glm.dot (glm.cross a b) v = s.x * s.y * s.z := by
  rw [dot_along hglm, cross_along hglm, funext ha, funext hb, funext hv, dot_cross_turned hq]

theorem fromMatrix_scale {t : CTransform ℝ} (hrotation : Quaternion.normSq t.rotation = 1) :
    (CTransform.fromMatrix glm (t.toMatrix glm)).scale = recovered t.scale := by
  have hx := vec3_basis hglm t 0 (by decide)
  have hy := vec3_basis hglm t 1 (by decide)
  have hz := vec3_basis hglm t 2 (by decide)
  show signedLengths glm _ _ _ = _
  rw [signedLengths, determinant_basis hglm hrotation hx hy hz, length_basis hglm hrotation hx, length_basis hglm hrotation hy,
    length_basis hglm hrotation hz]
  rfl

/-- A column that is divided, or left where the axis is. -/
theorem divide_basis {t : CTransform ℝ} {p : Quat ℝ} {v : Vec3 ℝ} {c : Axis}
    (hv : ∀ r, v.along r = turned t.rotation c r * t.scale.along c)
    (hkept : t.scale.along c ≠ 0 → ∀ r, turned p c r * (recovered t.scale).along c =
      turned t.rotation c r * t.scale.along c) :
    (if (recovered t.scale).along c ≠ 0 then (glm.divide v ((recovered t.scale).along c)).along else glm.mat3 1 c) =
      patched (turned p) (fun d => t.scale.along d ≠ 0) c := by
  by_cases hc : t.scale.along c ≠ 0
  · have hne := (recovered_ne_zero _ c).mpr hc
    rw [if_pos hne, patched_kept hc]
    funext r
    have hdivide : (glm.divide v ((recovered t.scale).along c)).along r = v.along r / (recovered t.scale).along c := by
      rw [hglm.divide]
      cases r <;> rfl
    rw [hdivide, hv, ← hkept hc, mul_div_cancel_right₀ _ hne]
  · rw [if_neg (fun h => hc ((recovered_ne_zero _ c).mp h)), patched_left hc, hglm.mat3]
    rfl

/-- What the rotation is read from: the columns of a rotation, but for those that cannot be normalized. -/
theorem normalizedBasis_toMatrix {t : CTransform ℝ} {p : Quat ℝ}
    (hkept : ∀ c, t.scale.along c ≠ 0 → ∀ r, turned p c r * (recovered t.scale).along c =
      turned t.rotation c r * t.scale.along c) :
    normalizedBasis glm (recovered t.scale) ((t.toMatrix glm).vec3 0) ((t.toMatrix glm).vec3 1) ((t.toMatrix glm).vec3 2) =
      patched (turned p) (fun c => t.scale.along c ≠ 0) := by
  obtain ⟨hx, hy, hz⟩ := normalizedBasis_columns glm (recovered t.scale) ((t.toMatrix glm).vec3 0)
    ((t.toMatrix glm).vec3 1) ((t.toMatrix glm).vec3 2)
  funext c
  cases c
  · rw [hx]
    exact divide_basis hglm (vec3_basis hglm t 0 (by decide)) (hkept .x)
  · rw [hy]
    exact divide_basis hglm (vec3_basis hglm t 1 (by decide)) (hkept .y)
  · rw [hz]
    exact divide_basis hglm (vec3_basis hglm t 2 (by decide)) (hkept .z)

/-- The rotation is read from those columns by the coordinate that they have the most of. -/
theorem fromMatrix_rotation {t : CTransform ℝ} (hrotation : Quaternion.normSq t.rotation = 1) {p : Quat ℝ}
    (hkept : ∀ c, t.scale.along c ≠ 0 → ∀ r, turned p c r * (recovered t.scale).along c =
      turned t.rotation c r * t.scale.along c) :
    ∃ root k, root * root = pivot (patched (turned p) fun c => t.scale.along c ≠ 0) k ∧
      Biggest (patched (turned p) fun c => t.scale.along c ≠ 0) k ∧
      (CTransform.fromMatrix glm (t.toMatrix glm)).rotation =
        extract root (patched (turned p) fun c => t.scale.along c ≠ 0) k := by
  have hspec := biggest_spec (patched (turned p) fun c => t.scale.along c ≠ 0)
  have hroot := Real.mul_self_sqrt hspec.1.pos.le
  refine ⟨_, _, hroot, hspec.1, ?_⟩
  show glm.quatCast (normalizedBasis glm (CTransform.fromMatrix glm (t.toMatrix glm)).scale _ _ _) = _
  rw [fromMatrix_scale hglm hrotation, normalizedBasis_toMatrix hglm hkept, hglm.quatCast]
  exact quatCastFormula_eq rfl hroot

/-- Where nothing is odd the matrix is made again, and else where the odd axis is at its place. -/
theorem lossless_iff_places {t : CTransform ℝ} (hrotation : Quaternion.normSq t.rotation = 1) :
    ∃ p : Quat ℝ, (∀ c, OddOneOut (fun d => t.scale.along d ≠ 0) c →
        ∀ r, turned p c r = signs t.scale * turned t.rotation c r) ∧
      (Lossless glm t ↔ ∀ c, OddOneOut (fun d => t.scale.along d ≠ 0) c → turned p c = axes c) := by
  obtain ⟨p, hp, hkept, hodd⟩ := exists_recovered hrotation t.scale
  obtain ⟨root, k, hroot, hbiggest, hread⟩ := fromMatrix_rotation hglm hrotation hkept
  have hposition : (CTransform.fromMatrix glm (t.toMatrix glm)).position = t.position := vec3_position hglm t
  refine ⟨p, hodd, ?_⟩
  rw [Lossless, toMatrix_same_iff hglm, hposition, hread, fromMatrix_scale hglm hrotation, and_iff_right rfl,
    ← extract_patched_iff hp hroot hbiggest]
  constructor
  · intro hsame c hc
    funext r
    apply mul_right_cancel₀ ((recovered_ne_zero _ c).mpr hc)
    rw [hsame c r, hkept c hc r]
  · intro hsame c r
    by_cases hc : t.scale.along c = 0
    · rw [hc, not_not.mp (fun h => (recovered_ne_zero _ c).mp h hc), mul_zero, mul_zero]
    · rw [hsame c hc, hkept c hc r]

theorem fromMatrix_lossless_iff (t : CTransform ℝ) (hrotation : Quaternion.normSq t.rotation = 1) :
    Lossless glm t ↔ Recoverable t := by
  obtain ⟨p, hodd, hlossless⟩ := lossless_iff_places hglm hrotation
  rw [hlossless]
  constructor
  · intro hplaces c hc r
    rw [← hodd c hc r, hplaces c hc]
  · intro hplaces c hc
    funext r
    rw [hodd c hc r, hplaces c hc r]

end Decompose

/-- What glm documents, computed. -/
def GlmMatrices.exact {F : Type} [Field F] [LinearOrder F] (sqrt : F → F) : GlmMatrices F where
  dot a b := a.x * b.x + a.y * b.y + a.z * b.z
  cross a b := ⟨a.y * b.z - b.y * a.z, a.z * b.x - b.z * a.x, a.x * b.y - b.x * a.y⟩
  length v := sqrt (v.x * v.x + v.y * v.y + v.z * v.z)
  divide v n := ⟨v.x / n, v.y / n, v.z / n⟩
  multiply a b := fun col row => a 0 row * b col 0 + a 1 row * b col 1 + a 2 row * b col 2 + a 3 row * b col 3
  mat4 n := fun col row => if col = row then n else 0
  mat3 n := fun c r => if c = r then n else 0
  translate m v := fun col row =>
    if col = 3 then m 0 row * v.x + m 1 row * v.y + m 2 row * v.z + m 3 row else m col row
  scale m v := fun col row => if col = 3 then m col row else m col row * v.along (axisOf col)
  toMat4 q := widen (turned q)
  quatCast := quatCastFormula sqrt

theorem exact_documented {F : Type} [Field F] [LinearOrder F] (sqrt : F → F) : (GlmMatrices.exact sqrt).Documented sqrt where
  dot _ _ := rfl
  cross _ _ := rfl
  length _ := rfl
  divide _ _ := rfl
  multiply _ _ _ _ _ _ := rfl
  mat4 _ _ _ _ _ := rfl
  mat3 _ := rfl
  translate _ _ _ _ _ _ := rfl
  scale _ _ _ _ _ _ := rfl
  toMat4 _ _ _ _ _ := rfl
  quatCast _ := rfl

/-- Half a turn and a mirror on every axis, as in the decomposition's first test. -/
theorem fromMatrix_lossless_mirrored :
    Lossless (GlmMatrices.exact Real.sqrt) { position := ⟨7, 1520, 100⟩, rotation := ⟨0, 0, 1, 0⟩, scale := ⟨-1, -1, -1⟩ } := by
  apply (fromMatrix_lossless_iff (exact_documented _) _ _).mpr
  · apply recoverable_of_scaled
    intro c
    cases c <;> norm_num [Vec3.along]
  · exact normSq_halfTurn .y

/-- Half a turn about the second axis and nothing of the first: the third comes back the other way. -/
theorem fromMatrix_loses_turn :
    Quaternion.normSq (⟨0, 0, 1, 0⟩ : Quat ℝ) = 1 ∧
      ¬Lossless (GlmMatrices.exact Real.sqrt) { position := ⟨0, 0, 0⟩, rotation := ⟨0, 0, 1, 0⟩, scale := ⟨0, 1, 1⟩ } := by
  have hunit : Quaternion.normSq (⟨0, 0, 1, 0⟩ : Quat ℝ) = 1 := normSq_halfTurn .y
  refine ⟨hunit, fun hlossless => ?_⟩
  obtain ⟨p, hodd, hiff⟩ := lossless_iff_places (exact_documented Real.sqrt)
    (t := { position := ⟨0, 0, 0⟩, rotation := ⟨0, 0, 1, 0⟩, scale := ⟨0, 1, 1⟩ }) hunit
  have hx : OddOneOut (fun d => (⟨0, 1, 1⟩ : Vec3 ℝ).along d ≠ 0) .x := by
    rintro (_ | _ | _) hd
    · exact absurd rfl hd
    · simp [Vec3.along]
    · simp [Vec3.along]
  have hplace := congrFun (hiff.mp hlossless .x hx) .x
  rw [hodd .x hx .x] at hplace
  norm_num [turned, axes, signs, signOf] at hplace

end TgeCore.Math
