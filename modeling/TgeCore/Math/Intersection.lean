import Mathlib.Algebra.Order.Field.Basic
import Mathlib.Order.WithBot
import Mathlib.Tactic.Linarith
import TgeCore.Math.Spheres

namespace TgeCore.Math
open Library

structure SPlane (F : Type) where
  normal : Vec3 F
  distance : F

structure SFrustum (F : Type) where
  planes : Vector (SPlane F) 6

/-- Four columns of four numbers: `vp col row` is vp[col][row], and no other place is looked at. -/
abbrev Mat4 (F : Type) := Nat → Nat → F

/-- Contains of a box and a point. -/
def contains {F : Type} [LE F] [DecidableLE F] (aabb : CAABB F) (point : Vec3 F) : Bool :=
  point.x ≥ aabb.min.x && point.x ≤ aabb.max.x &&
    point.y ≥ aabb.min.y && point.y ≤ aabb.max.y &&
    point.z ≥ aabb.min.z && point.z ≤ aabb.max.z

theorem contains_iff {F : Type} [LE F] [DecidableLE F] {aabb : CAABB F} {point : Vec3 F} :
    contains aabb point = true ↔ (aabb.min.x ≤ point.x ∧ point.x ≤ aabb.max.x) ∧
    (aabb.min.y ≤ point.y ∧ point.y ≤ aabb.max.y) ∧ aabb.min.z ≤ point.z ∧ point.z ≤ aabb.max.z := by
  simp only [contains, ge_iff_le, Bool.and_eq_true, decide_eq_true_eq, and_assoc]

section Frustum
variable {F : Type} [CommRing F] [LinearOrder F]

def extractFrustum (vp : Mat4 F) : SFrustum F where
  planes :=
    #v[{ normal := ⟨vp 0 3 + vp 0 0, vp 1 3 + vp 1 0, vp 2 3 + vp 2 0⟩, distance := vp 3 3 + vp 3 0 },
      { normal := ⟨vp 0 3 - vp 0 0, vp 1 3 - vp 1 0, vp 2 3 - vp 2 0⟩, distance := vp 3 3 - vp 3 0 },
      { normal := ⟨vp 0 3 + vp 0 1, vp 1 3 + vp 1 1, vp 2 3 + vp 2 1⟩, distance := vp 3 3 + vp 3 1 },
      { normal := ⟨vp 0 3 - vp 0 1, vp 1 3 - vp 1 1, vp 2 3 - vp 2 1⟩, distance := vp 3 3 - vp 3 1 },
      { normal := ⟨vp 0 2, vp 1 2, vp 2 2⟩, distance := vp 3 2 },
      { normal := ⟨vp 0 3 - vp 0 2, vp 1 3 - vp 1 2, vp 2 3 - vp 2 2⟩, distance := vp 3 3 - vp 3 2 }]

def positiveVertex (aabb : CAABB F) (plane : SPlane F) : Vec3 F where
  x := if plane.normal.x ≥ 0 then aabb.max.x else aabb.min.x
  y := if plane.normal.y ≥ 0 then aabb.max.y else aabb.min.y
  z := if plane.normal.z ≥ 0 then aabb.max.z else aabb.min.z

/-- The loop over the planes, which ends at one that the box is behind. `dot` is glm's. -/
def intersectsPlanes (dot : Vec3 F → Vec3 F → F) (aabb : CAABB F) : List (SPlane F) → Bool
  | [] => true
  | plane :: rest =>
    if dot plane.normal (positiveVertex aabb plane) + plane.distance ≥ 0 then intersectsPlanes dot aabb rest else false

/-- Intersects of a box and a frustum. -/
def intersectsFrustum (dot : Vec3 F → Vec3 F → F) (aabb : CAABB F) (frustum : SFrustum F) : Bool :=
  intersectsPlanes dot aabb frustum.planes.toList

/-- What glm says of its dot product. -/
def IsDot (dot : Vec3 F → Vec3 F → F) : Prop := ∀ a b, dot a b = a.x * b.x + a.y * b.y + a.z * b.z

/-- A row of what the matrix makes of a point. -/
def clip (vp : Mat4 F) (point : Vec3 F) (row : Nat) : F :=
  vp 0 row * point.x + vp 1 row * point.y + vp 2 row * point.z + vp 3 row

/-- The clip coordinates are within the volume that is drawn. -/
structure Visible (vp : Mat4 F) (point : Vec3 F) : Prop where
  left : -clip vp point 3 ≤ clip vp point 0
  right : clip vp point 0 ≤ clip vp point 3
  bottom : -clip vp point 3 ≤ clip vp point 1
  top : clip vp point 1 ≤ clip vp point 3
  near : 0 ≤ clip vp point 2
  far : clip vp point 2 ≤ clip vp point 3

def SPlane.Inside (plane : SPlane F) (point : Vec3 F) : Prop :=
  0 ≤ plane.normal.x * point.x + plane.normal.y * point.y + plane.normal.z * point.z + plane.distance

variable [IsStrictOrderedRing F] {vp : Mat4 F} {point : Vec3 F} {aabb : CAABB F} {dot : Vec3 F → Vec3 F → F}

/-- The planes are sums and differences of the matrix's rows. -/
theorem inside_add (row other : Nat) :
    SPlane.Inside ⟨⟨vp 0 row + vp 0 other, vp 1 row + vp 1 other, vp 2 row + vp 2 other⟩, vp 3 row + vp 3 other⟩ point ↔
      -clip vp point row ≤ clip vp point other := by
  have hsum : (vp 0 row + vp 0 other) * point.x + (vp 1 row + vp 1 other) * point.y + (vp 2 row + vp 2 other) * point.z +
      (vp 3 row + vp 3 other) = clip vp point other - -clip vp point row := by
    unfold clip
    ring
  unfold SPlane.Inside
  rw [hsum, sub_nonneg]

theorem inside_sub (row other : Nat) :
    SPlane.Inside ⟨⟨vp 0 row - vp 0 other, vp 1 row - vp 1 other, vp 2 row - vp 2 other⟩, vp 3 row - vp 3 other⟩ point ↔
      clip vp point other ≤ clip vp point row := by
  have hsum : (vp 0 row - vp 0 other) * point.x + (vp 1 row - vp 1 other) * point.y + (vp 2 row - vp 2 other) * point.z +
      (vp 3 row - vp 3 other) = clip vp point row - clip vp point other := by
    unfold clip
    ring
  unfold SPlane.Inside
  rw [hsum, sub_nonneg]

theorem inside_iff (vp : Mat4 F) (point : Vec3 F) :
    (∀ plane ∈ (extractFrustum vp).planes.toList, plane.Inside point) ↔ Visible vp point := by
  have hplanes : (∀ plane ∈ (extractFrustum vp).planes.toList, plane.Inside point) ↔
      -clip vp point 3 ≤ clip vp point 0 ∧ clip vp point 0 ≤ clip vp point 3 ∧ -clip vp point 3 ≤ clip vp point 1 ∧
        clip vp point 1 ≤ clip vp point 3 ∧ 0 ≤ clip vp point 2 ∧ clip vp point 2 ≤ clip vp point 3 := by
    simp only [extractFrustum, Vector.toList, List.forall_mem_cons, List.not_mem_nil, false_imp_iff, implies_true, and_true]
    rw [inside_add, inside_sub, inside_add, inside_sub, inside_sub]
    exact Iff.rfl
  rw [hplanes]
  exact ⟨fun ⟨left, right, bottom, top, near, far⟩ => ⟨left, right, bottom, top, near, far⟩,
    fun h => ⟨h.left, h.right, h.bottom, h.top, h.near, h.far⟩⟩

/-- Of a range, the end that a number says is where its product is greatest. -/
theorem mul_le_mul_end {n low v high : F} (hlow : low ≤ v) (hhigh : v ≤ high) :
    n * v ≤ n * (if n ≥ 0 then high else low) := by
  split
  · rename_i hn
    exact mul_le_mul_of_nonneg_left hhigh hn
  · rename_i hn
    exact mul_le_mul_of_nonpos_left hlow (not_le.mp hn).le

/-- No point of the box is further on the inner side than the vertex that is tested. -/
theorem positiveVertex_inside (hdot : IsDot dot) {plane : SPlane F} (hpoint : contains aabb point = true)
    (hinside : plane.Inside point) : dot plane.normal (positiveVertex aabb plane) + plane.distance ≥ 0 := by
  obtain ⟨⟨hx, hx'⟩, ⟨hy, hy'⟩, hz, hz'⟩ := contains_iff.mp hpoint
  rw [hdot]
  refine hinside.trans (add_le_add_left ?_ _)
  exact add_le_add (add_le_add (mul_le_mul_end hx hx') (mul_le_mul_end hy hy')) (mul_le_mul_end hz hz')

theorem intersectsPlanes_of_inside (hdot : IsDot dot) (hpoint : contains aabb point = true) (planes : List (SPlane F))
    (hinside : ∀ plane ∈ planes, plane.Inside point) : intersectsPlanes dot aabb planes = true := by
  induction planes with
  | nil => rfl
  | cons plane rest ih =>
    rw [intersectsPlanes, if_pos (positiveVertex_inside hdot hpoint (hinside plane List.mem_cons_self))]
    exact ih fun other hother => hinside other (List.mem_cons_of_mem _ hother)

/-- A box with a visible point is never culled, and the planes say of a point what its clip coordinates say. -/
theorem frustum_keeps_visible (dot : Vec3 F → Vec3 F → F) (hdot : IsDot dot) (vp : Mat4 F) :
    (∀ aabb point, contains aabb point = true → Visible vp point →
      intersectsFrustum dot aabb (extractFrustum vp) = true) ∧
    ∀ point, Visible vp point ↔ ∀ plane ∈ (extractFrustum vp).planes.toList, plane.Inside point :=
  ⟨fun _ point hpoint hvisible => intersectsPlanes_of_inside hdot hpoint _ ((inside_iff vp point).mpr hvisible),
    fun point => (inside_iff vp point).symm⟩

/-- The product that glm documents, for an example. -/
def exactDot (a b : Vec3 ℚ) : ℚ := a.x * b.x + a.y * b.y + a.z * b.z

/-- A matrix that leaves points alone, for an example. -/
def identity : Mat4 ℚ := fun col row => if col = row then 1 else 0

/-- A box that is only partly in the volume. -/
theorem frustum_keeps_visible_identity :
    intersectsFrustum exactDot ⟨⟨-2, -2, -2⟩, ⟨0, 0, 0⟩⟩ (extractFrustum identity) = true ∧
    (Visible identity ⟨0, 0, 0⟩ ↔ ∀ plane ∈ (extractFrustum identity).planes.toList, plane.Inside ⟨0, 0, 0⟩) := by
  have hdot : IsDot exactDot := fun _ _ => rfl
  obtain ⟨hkeeps, hinside⟩ := frustum_keeps_visible exactDot hdot identity
  refine ⟨hkeeps _ ⟨0, 0, 0⟩ (by decide +kernel) ⟨?_, ?_, ?_, ?_, ?_, ?_⟩, hinside _⟩
  all_goals decide +kernel

end Frustum

section Ray
variable {F : Type} [Field F] [LinearOrder F]

structure SRay (F : Type) where
  origin : Vec3 F
  direction : Vec3 F

/-- The component with an index. -/
def Vec3.component (v : Vec3 F) : Fin 3 → F
  | 0 => v.x
  | 1 => v.y
  | 2 => v.z

/-- The distance from one to the next float. -/
def Epsilon : F := 1 / 2 ^ 23

/-- What Intersects returns and the two numbers it sets. The upper one is Infinity at first. -/
structure RayHit (F : Type) where
  hit : Bool := true
  tMin : F
  tMax : WithTop F

/-- The loop's body for one axis. -/
def RayHit.narrow (ray : SRay F) (aabb : CAABB F) (h : RayHit F) (i : Fin 3) : RayHit F :=
  let origin := ray.origin.component i
  let direction := ray.direction.component i
  if |direction| > Epsilon then
    let t1 := (aabb.min.component i - origin) / direction
    let t2 := (aabb.max.component i - origin) / direction
    let tMin := max h.tMin (min t1 t2)
    let tMax := min h.tMax ↑(max t1 t2)
    { hit := if tMax < tMin then false else h.hit, tMin, tMax }
  else { h with hit := if origin < aabb.min.component i ∨ origin > aabb.max.component i then false else h.hit }

/-- Intersects of a ray and a box. -/
def intersectsRay (ray : SRay F) (aabb : CAABB F) : RayHit F :=
  [0, 1, 2].foldl (RayHit.narrow ray aabb) { tMin := 0, tMax := ⊤ }

def SRay.at (ray : SRay F) (t : F) : Vec3 F where
  x := ray.origin.x + t * ray.direction.x
  y := ray.origin.y + t * ray.direction.y
  z := ray.origin.z + t * ray.direction.z

/-- The corners are in order on every axis, and each part of the direction is nothing or no rounding error. -/
structure SRay.Exact (ray : SRay F) (aabb : CAABB F) : Prop where
  direction : ∀ i, ray.direction.component i = 0 ∨ Epsilon < |ray.direction.component i|
  ordered : ∀ i, aabb.min.component i ≤ aabb.max.component i

/-- Between the two sides of a box on one axis. -/
def SRay.Between (ray : SRay F) (aabb : CAABB F) (t : F) (i : Fin 3) : Prop :=
  aabb.min.component i ≤ ray.origin.component i + t * ray.direction.component i ∧
    ray.origin.component i + t * ray.direction.component i ≤ aabb.max.component i

theorem contains_at_iff {ray : SRay F} {aabb : CAABB F} {t : F} :
    contains aabb (ray.at t) = true ↔ ∀ i ∈ [0, 1, 2], ray.Between aabb t i := by
  rw [contains_iff]
  simp only [List.forall_mem_cons, List.not_mem_nil, false_imp_iff, implies_true, and_true]
  exact Iff.rfl

variable {ray : SRay F} {aabb : CAABB F} {h : RayHit F} {i : Fin 3} {axes : List (Fin 3)} {t : F}

/-- What the loop has found after some of the axes. -/
structure RayHit.Narrowed (ray : SRay F) (aabb : CAABB F) (axes : List (Fin 3)) (h : RayHit F) : Prop where
  found : h.hit = true → ↑h.tMin ≤ h.tMax ∧
    ∀ t : F, (h.tMin ≤ t ∧ ↑t ≤ h.tMax) ↔ 0 ≤ t ∧ ∀ i ∈ axes, ray.Between aabb t i
  missed : h.hit = false → ∀ t : F, 0 ≤ t → ¬∀ i ∈ axes, ray.Between aabb t i

theorem RayHit.Narrowed.start : RayHit.Narrowed ray aabb [] { tMin := 0, tMax := ⊤ } where
  found := fun _ => ⟨le_top, fun _ => by simp⟩
  missed := fun hmiss => (nomatch hmiss)

/-- What was missed stays missed. -/
theorem RayHit.Narrowed.stays (hn : h.Narrowed ray aabb axes) (hmiss : h.hit = false) (ht : 0 ≤ t) :
    ¬∀ j ∈ axes ++ [i], ray.Between aabb t j :=
  fun hall => hn.missed hmiss t ht fun j hj => hall j (List.mem_append_left _ hj)

/-- The interval that the next axis leaves, told by its two ends. -/
theorem RayHit.Narrowed.cut (hn : h.Narrowed ray aabb axes) {tMin : F} {tMax : WithTop F}
    (hcut : ∀ t : F, (tMin ≤ t ∧ ↑t ≤ tMax) ↔ (h.tMin ≤ t ∧ ↑t ≤ h.tMax) ∧ ray.Between aabb t i) :
    RayHit.Narrowed ray aabb (axes ++ [i]) { hit := if tMax < tMin then false else h.hit, tMin, tMax } := by
  cases hhit : h.hit with
  | false =>
    rw [ite_self]
    exact ⟨fun hmiss => (nomatch hmiss), fun _ t ht => hn.stays hhit ht⟩
  | true =>
    have hset : ∀ t : F, (tMin ≤ t ∧ ↑t ≤ tMax) ↔ 0 ≤ t ∧ ∀ j ∈ axes ++ [i], ray.Between aabb t j := by
      intro t
      rw [hcut, (hn.found hhit).2, List.forall_mem_append, List.forall_mem_singleton, and_assoc]
    by_cases hempty : tMax < tMin
    · rw [if_pos hempty]
      refine ⟨fun hmiss => (nomatch hmiss), fun _ t ht hall => ?_⟩
      obtain ⟨hlow, hhigh⟩ := (hset t).mpr ⟨ht, hall⟩
      exact absurd hempty (not_lt.mpr ((WithTop.coe_le_coe.mpr hlow).trans hhigh))
    · rw [if_neg hempty]
      exact ⟨fun _ => ⟨not_lt.mp hempty, hset⟩, fun hmiss => (nomatch hmiss)⟩

/-- An axis that the ray does not move along lets every time pass or none. -/
theorem RayHit.Narrowed.parallel (hn : h.Narrowed ray aabb axes) (hzero : ray.direction.component i = 0) :
    RayHit.Narrowed ray aabb (axes ++ [i]) { h with
      hit := if ray.origin.component i < aabb.min.component i ∨ ray.origin.component i > aabb.max.component i then false
        else h.hit } := by
  have hbetween : ∀ t : F, ray.Between aabb t i ↔
      aabb.min.component i ≤ ray.origin.component i ∧ ray.origin.component i ≤ aabb.max.component i := by
    intro t
    unfold SRay.Between
    rw [hzero, mul_zero, add_zero]
  have hsplit : ∀ t : F, (∀ j ∈ axes ++ [i], ray.Between aabb t j) ↔
      (∀ j ∈ axes, ray.Between aabb t j) ∧ ray.Between aabb t i := by
    intro t
    rw [List.forall_mem_append, List.forall_mem_singleton]
  split
  · rename_i hout
    refine ⟨fun hmiss => (nomatch hmiss), fun _ t _ hall => ?_⟩
    obtain ⟨hlow, hhigh⟩ := (hbetween t).mp ((hsplit t).mp hall).2
    exact hout.elim (not_lt.mpr hlow) (not_lt.mpr hhigh)
  · rename_i hin
    obtain ⟨hlow, hhigh⟩ := not_or.mp hin
    refine ⟨fun hhit => ?_, fun hmiss t ht => hn.stays hmiss ht⟩
    obtain ⟨hle, hset⟩ := hn.found hhit
    refine ⟨hle, fun t => ?_⟩
    rw [hset, hsplit, and_iff_left ((hbetween t).mpr ⟨not_lt.mp hlow, not_lt.mp hhigh⟩)]

section Ordered
variable [IsStrictOrderedRing F]

theorem epsilon_pos : (0 : F) < Epsilon := one_div_pos.mpr (pow_pos two_pos 23)

/-- A ray is between two sides from the time it meets one of them to the time it meets the other. -/
theorem between_iff {low high origin direction : F} (hne : direction ≠ 0) (hle : low ≤ high) :
    (low ≤ origin + t * direction ∧ origin + t * direction ≤ high) ↔
      min ((low - origin) / direction) ((high - origin) / direction) ≤ t ∧
        t ≤ max ((low - origin) / direction) ((high - origin) / direction) := by
  have hshift : (low ≤ origin + t * direction ∧ origin + t * direction ≤ high) ↔
      low - origin ≤ t * direction ∧ t * direction ≤ high - origin := by
    rw [sub_le_iff_le_add', le_sub_iff_add_le']
  have hsides : low - origin ≤ high - origin := sub_le_sub_right hle origin
  rw [hshift]
  cases lt_or_gt_of_ne hne with
  | inl hneg =>
    have hswap : (high - origin) / direction ≤ (low - origin) / direction := (div_le_div_right_of_neg hneg).mpr hsides
    rw [min_eq_right hswap, max_eq_left hswap, div_le_iff_of_neg hneg, le_div_iff_of_neg hneg]
    exact and_comm
  | inr hpos =>
    have hkeep : (low - origin) / direction ≤ (high - origin) / direction := (div_le_div_iff_of_pos_right hpos).mpr hsides
    rw [min_eq_left hkeep, max_eq_right hkeep, div_le_iff₀ hpos, le_div_iff₀ hpos]

theorem RayHit.Narrowed.narrow (hexact : ray.Exact aabb) (hn : h.Narrowed ray aabb axes) (i : Fin 3) :
    (h.narrow ray aabb i).Narrowed ray aabb (axes ++ [i]) := by
  unfold RayHit.narrow
  simp only
  split
  · rename_i hdirection
    have hne : ray.direction.component i ≠ 0 := abs_pos.mp (epsilon_pos.trans hdirection)
    refine hn.cut fun t => ?_
    unfold SRay.Between
    rw [between_iff hne (hexact.ordered i), max_le_iff, le_min_iff, WithTop.coe_le_coe, and_and_and_comm]
  · rename_i hdirection
    exact hn.parallel ((hexact.direction i).resolve_right hdirection)

theorem intersectsRay_narrowed (hexact : ray.Exact aabb) : (intersectsRay ray aabb).Narrowed ray aabb [0, 1, 2] :=
  ((RayHit.Narrowed.start.narrow hexact 0).narrow hexact 1).narrow hexact 2

/-- The test is right, and the interval it sets has the times at which the ray is in the box and no other. -/
theorem intersectsRay_exact (ray : SRay F) (aabb : CAABB F) (hexact : ray.Exact aabb) :
    ((intersectsRay ray aabb).hit = true ↔ ∃ t : F, 0 ≤ t ∧ contains aabb (ray.at t) = true) ∧
    ((intersectsRay ray aabb).hit = true → ∀ t : F,
      ((intersectsRay ray aabb).tMin ≤ t ∧ ↑t ≤ (intersectsRay ray aabb).tMax) ↔
        0 ≤ t ∧ contains aabb (ray.at t) = true) := by
  have hn := intersectsRay_narrowed hexact
  have hset : (intersectsRay ray aabb).hit = true → ∀ t : F,
      ((intersectsRay ray aabb).tMin ≤ t ∧ ↑t ≤ (intersectsRay ray aabb).tMax) ↔
        0 ≤ t ∧ contains aabb (ray.at t) = true := by
    intro hhit t
    rw [(hn.found hhit).2, contains_at_iff]
  refine ⟨⟨fun hhit => ?_, fun ⟨t, ht, hcontains⟩ => ?_⟩, hset⟩
  · exact ⟨_, (hset hhit _).mp ⟨le_refl _, (hn.found hhit).1⟩⟩
  · by_contra hmiss
    exact hn.missed (Bool.not_eq_true _ ▸ hmiss) t ht (contains_at_iff.mp hcontains)

/-- The unit box, and a ray towards it along one axis. -/
def unitBox : CAABB ℚ := ⟨⟨0, 0, 0⟩, ⟨1, 1, 1⟩⟩

def levelRay : SRay ℚ := ⟨⟨-1, 1 / 2, 1 / 2⟩, ⟨2, 0, 0⟩⟩

theorem intersectsRay_exact_level : (intersectsRay levelRay unitBox).tMin = 1 / 2 ∧ (intersectsRay levelRay unitBox).tMax = (1 : ℚ) ∧
    ((intersectsRay levelRay unitBox).hit = true ↔ ∃ t : ℚ, 0 ≤ t ∧ contains unitBox (levelRay.at t) = true) ∧
    ∀ t : ℚ, ((intersectsRay levelRay unitBox).tMin ≤ t ∧ ↑t ≤ (intersectsRay levelRay unitBox).tMax) ↔
      0 ≤ t ∧ contains unitBox (levelRay.at t) = true := by
  obtain ⟨hhit, hset⟩ := intersectsRay_exact levelRay unitBox ⟨by decide +kernel, by decide +kernel⟩
  exact ⟨by decide +kernel, by decide +kernel, hhit, hset (by decide +kernel)⟩

end Ordered

end Ray

end TgeCore.Math
