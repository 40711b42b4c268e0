import TgeCore.Library.Box

namespace TgeCore.Math
open Library Metric

structure Vec3 (F : Type) where
  x : F
  y : F
  z : F

structure SSphere (F : Type) where
  center : Vec3 F
  radius : F

structure CAABB (F : Type) where
  min : Vec3 F
  max : Vec3 F

/-- What the math functions take from glm, which is not part of the repository. -/
structure Glm (F : Type) where
  distance : Vec3 F → Vec3 F → F
  clamp : Vec3 F → Vec3 F → Vec3 F → Vec3 F

section Code
variable {F : Type} (glm : Glm F)

def distance (a b : Vec3 F) : F := glm.distance a b

def clamp (value min max : Vec3 F) : Vec3 F := glm.clamp value min max

variable [Add F] [Mul F] [LE F] [DecidableLE F]

/-- Intersects of two spheres. -/
def intersectsSphere (a b : SSphere F) : Bool :=
  let distanceSquared := distance glm a.center b.center
  let radiusSum := a.radius + b.radius
  distanceSquared ≤ radiusSum * radiusSum

/-- Intersects of a box and a sphere. -/
def intersectsAABB (aabb : CAABB F) (sphere : SSphere F) : Bool :=
  let closestPoint := clamp glm sphere.center aabb.min aabb.max
  let distanceSquared := distance glm sphere.center closestPoint
  distanceSquared ≤ sphere.radius * sphere.radius

/-- Contains of a sphere and a point. -/
def containsPoint (sphere : SSphere F) (point : Vec3 F) : Bool :=
  let distanceSquared := distance glm sphere.center point
  distanceSquared ≤ sphere.radius * sphere.radius

end Code

/-- The vector as a point of Euclidean space. -/
noncomputable def Vec3.point (v : Vec3 ℝ) : EuclideanSpace ℝ (Fin 3) := WithLp.toLp _ ![v.x, v.y, v.z]

def SSphere.ball (sphere : SSphere ℝ) : Set (EuclideanSpace ℝ (Fin 3)) :=
  closedBall sphere.center.point sphere.radius

def CAABB.box (aabb : CAABB ℝ) : Set (EuclideanSpace ℝ (Fin 3)) :=
  Library.box aabb.min.point aabb.max.point

/-- The corners are in order on every axis. -/
structure CAABB.Ordered (aabb : CAABB ℝ) : Prop where
  x : aabb.min.x ≤ aabb.max.x
  y : aabb.min.y ≤ aabb.max.y
  z : aabb.min.z ≤ aabb.max.z

/-- What glm says of the two functions over exact numbers: the length of the difference,
and, where the bounds are in order, the value brought between them on each axis. -/
structure Glm.Documented (glm : Glm ℝ) : Prop where
  distance : ∀ a b, glm.distance a b = √((a.x - b.x) ^ 2 + (a.y - b.y) ^ 2 + (a.z - b.z) ^ 2)
  clamp : ∀ value (aabb : CAABB ℝ), aabb.Ordered → glm.clamp value aabb.min aabb.max =
    { x := min (max value.x aabb.min.x) aabb.max.x
      y := min (max value.y aabb.min.y) aabb.max.y
      z := min (max value.z aabb.min.z) aabb.max.z }

/-- A length that a comparison with the square of the radius puts on the side that the
radius puts it on. -/
def Clear (radius length : ℝ) : Prop :=
  ¬(min radius (radius * radius) < length ∧ length ≤ max radius (radius * radius))

theorem le_sq_iff_clear (radius length : ℝ) :
    (length ≤ radius * radius ↔ length ≤ radius) ↔ Clear radius length := by
  rw [Clear, min_lt_iff, le_max_iff]
  rcases le_or_gt length (radius * radius) with hsq | hsq <;>
    rcases le_or_gt length radius with hr | hr <;>
    simp [hsq, hr, not_le.mpr, not_lt.mpr]

theorem ordered_point {aabb : CAABB ℝ} (haabb : aabb.Ordered) (i : Fin 3) :
    aabb.min.point i ≤ aabb.max.point i := by
  fin_cases i
  · exact haabb.x
  · exact haabb.y
  · exact haabb.z

section Geometry
variable {glm : Glm ℝ} (hglm : glm.Documented)
include hglm

theorem distance_eq (a b : Vec3 ℝ) : distance glm a b = dist a.point b.point := by
  rw [distance, hglm.distance, EuclideanSpace.dist_eq, Fin.sum_univ_three]
  simp only [Real.dist_eq, sq_abs]
  rfl

theorem clamp_point (value : Vec3 ℝ) {aabb : CAABB ℝ} (haabb : aabb.Ordered) :
    (clamp glm value aabb.min aabb.max).point =
      boxNearest aabb.min.point aabb.max.point value.point := by
  rw [clamp, hglm.clamp value aabb haabb, boxNearest, Vec3.point]
  congr 1
  funext i
  fin_cases i <;> rfl

theorem containsPoint_iff (sphere : SSphere ℝ) (point : Vec3 ℝ) :
    containsPoint glm sphere point = true ↔
      dist point.point sphere.center.point ≤ sphere.radius * sphere.radius := by
  rw [containsPoint, decide_eq_true_iff, distance_eq hglm, dist_comm]

theorem intersectsSphere_iff (a b : SSphere ℝ) :
    intersectsSphere glm a b = true ↔
      dist a.center.point b.center.point ≤ (a.radius + b.radius) * (a.radius + b.radius) := by
  rw [intersectsSphere, decide_eq_true_iff, distance_eq hglm]

theorem intersectsAABB_iff {aabb : CAABB ℝ} (haabb : aabb.Ordered) (sphere : SSphere ℝ) :
    intersectsAABB glm aabb sphere = true ↔
      infDist sphere.center.point aabb.box ≤ sphere.radius * sphere.radius := by
  rw [intersectsAABB, decide_eq_true_iff, distance_eq hglm, clamp_point hglm _ haabb, CAABB.box,
    infDist_box (ordered_point haabb)]

/-- Each test agrees with the geometry if and only if the distance that decides it does not
lie between the radius and its square. -/
theorem sphere_tests_agree (a b : SSphere ℝ) (point : Vec3 ℝ) {aabb : CAABB ℝ} (ha : 0 ≤ a.radius)
    (hb : 0 ≤ b.radius) (haabb : aabb.Ordered) :
    ((containsPoint glm a point = true ↔ dist point.point a.center.point ≤ a.radius) ↔
      Clear a.radius (dist point.point a.center.point)) ∧
    ((intersectsSphere glm a b = true ↔ (a.ball ∩ b.ball).Nonempty) ↔
      Clear (a.radius + b.radius) (dist a.center.point b.center.point)) ∧
    ((intersectsAABB glm aabb a = true ↔ (aabb.box ∩ a.ball).Nonempty) ↔
      Clear a.radius (infDist a.center.point aabb.box)) := by
  refine ⟨?_, ?_, ?_⟩
  · rw [containsPoint_iff hglm]
    exact le_sq_iff_clear _ _
  · rw [intersectsSphere_iff hglm, SSphere.ball, SSphere.ball, closedBalls_meet ha hb]
    exact le_sq_iff_clear _ _
  · have hmeets := box_meets_closedBall (p := a.center.point) (ordered_point haabb) a.radius
    rw [intersectsAABB_iff hglm haabb, SSphere.ball, CAABB.box, hmeets]
    exact le_sq_iff_clear _ _

end Geometry

/-- The two functions, computed over the real numbers. -/
noncomputable def Glm.exact : Glm ℝ where
  distance a b := √((a.x - b.x) ^ 2 + (a.y - b.y) ^ 2 + (a.z - b.z) ^ 2)
  clamp value low high :=
    { x := min (max value.x low.x) high.x
      y := min (max value.y low.y) high.y
      z := min (max value.z low.z) high.z }

theorem Glm.exact_documented : Glm.exact.Documented :=
  ⟨fun _ _ => rfl, fun _ _ _ => rfl⟩

def origin : Vec3 ℝ := ⟨0, 0, 0⟩

theorem sphere_tests_agree_unit :
    ((containsPoint Glm.exact ⟨origin, 1⟩ ⟨1, 0, 0⟩ = true ↔
        dist (Vec3.point ⟨1, 0, 0⟩) origin.point ≤ 1) ↔ Clear 1 (dist (Vec3.point ⟨1, 0, 0⟩) origin.point)) ∧
    ((intersectsSphere Glm.exact ⟨origin, 1⟩ ⟨origin, 2⟩ = true ↔
        (SSphere.ball ⟨origin, 1⟩ ∩ SSphere.ball ⟨origin, 2⟩).Nonempty) ↔
      Clear (1 + 2) (dist origin.point origin.point)) ∧
    ((intersectsAABB Glm.exact ⟨origin, ⟨1, 1, 1⟩⟩ ⟨origin, 1⟩ = true ↔
        (CAABB.box ⟨origin, ⟨1, 1, 1⟩⟩ ∩ SSphere.ball ⟨origin, 1⟩).Nonempty) ↔
      Clear 1 (infDist origin.point (CAABB.box ⟨origin, ⟨1, 1, 1⟩⟩))) :=
  sphere_tests_agree Glm.exact_documented ⟨origin, 1⟩ ⟨origin, 2⟩ ⟨1, 0, 0⟩ zero_le_one zero_le_two
    ⟨zero_le_one, zero_le_one, zero_le_one⟩

/-- A point at three from the centre of a sphere of radius two: three is not above four. -/
theorem containsPoint_outside :
    ¬(containsPoint Glm.exact ⟨origin, 2⟩ ⟨3, 0, 0⟩ = true ↔
      dist (Vec3.point ⟨3, 0, 0⟩) origin.point ≤ 2) := by
  have hdist : dist (Vec3.point ⟨3, 0, 0⟩) origin.point = 3 := by
    rw [← distance_eq Glm.exact_documented, distance, Glm.exact_documented.distance]
    simp [origin]
  rw [containsPoint_iff Glm.exact_documented, hdist]
  norm_num

end TgeCore.Math
