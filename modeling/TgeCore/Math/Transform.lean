import TgeCore.Library.Rotation
import TgeCore.Math.Intersection

namespace TgeCore.Math
open Library

abbrev Quat (F : Type) [Zero F] [One F] [Neg F] := Quaternion F

/-- `m .x` is m[0], a column. -/
abbrev Mat3 (F : Type) := Columns F

section Code
variable {F : Type} [Field F]

/-- The number that is the vector's on an axis. -/
def Vec3.along (v : Vec3 F) : Axis → F
  | .x => v.x
  | .y => v.y
  | .z => v.z

/-- Vec3(matrix[col]). -/
def Mat4.vec3 (matrix : Mat4 F) (col : Nat) : Vec3 F := ⟨matrix col 0, matrix col 1, matrix col 2⟩

/-- What transforms take from glm, its operators included. -/
structure GlmMatrices (F : Type) [Field F] where
  dot : Vec3 F → Vec3 F → F
  cross : Vec3 F → Vec3 F → Vec3 F
  length : Vec3 F → F
  divide : Vec3 F → F → Vec3 F
  multiply : Mat4 F → Mat4 F → Mat4 F
  mat4 : F → Mat4 F
  mat3 : F → Mat3 F
  translate : Mat4 F → Vec3 F → Mat4 F
  scale : Mat4 F → Vec3 F → Mat4 F
  toMat4 : Quat F → Mat4 F
  quatCast : Mat3 F → Quat F

structure CTransform (F : Type) [Field F] where
  position : Vec3 F := ⟨0, 0, 0⟩
  rotation : Quat F := ⟨1, 0, 0, 0⟩
  scale : Vec3 F := ⟨1, 1, 1⟩

variable (glm : GlmMatrices F)

def translate (translation : Vec3 F) : Mat4 F := glm.translate (glm.mat4 1) translation

def scale (scale : Vec3 F) : Mat4 F := glm.scale (glm.mat4 1) scale

def quaternionToMatrix (q : Quat F) : Mat4 F := glm.toMat4 q

def quaternionFromMatrix (m : Mat3 F) : Quat F := glm.quatCast m

def CTransform.toMatrix (transform : CTransform F) : Mat4 F :=
  let translationMatrix := translate glm transform.position
  let rotationMatrix := quaternionToMatrix glm transform.rotation
  let scaleMatrix := Math.scale glm transform.scale
  glm.multiply (glm.multiply translationMatrix rotationMatrix) scaleMatrix

variable [LinearOrder F]

/-- The scale that FromMatrix reads from the matrix's columns. -/
def signedLengths (scaleX scaleY scaleZ : Vec3 F) : Vec3 F :=
  let determinant := glm.dot (glm.cross scaleX scaleY) scaleZ
  let signX := if determinant < 0 then -1 else 1
  ⟨signX * glm.length scaleX, glm.length scaleY, glm.length scaleZ⟩

/-- FromMatrix's rotation matrix, where a column without a length stays the unit matrix's. -/
def normalizedBasis (scale scaleX scaleY scaleZ : Vec3 F) : Mat3 F :=
  let rotationMatrix := glm.mat3 1
  let rotationMatrix :=
    if scale.x ≠ 0 then Function.update rotationMatrix .x (glm.divide scaleX scale.x).along else rotationMatrix
  let rotationMatrix :=
    if scale.y ≠ 0 then Function.update rotationMatrix .y (glm.divide scaleY scale.y).along else rotationMatrix
  if scale.z ≠ 0 then Function.update rotationMatrix .z (glm.divide scaleZ scale.z).along else rotationMatrix

def CTransform.fromMatrix (matrix : Mat4 F) : CTransform F :=
  let scale := signedLengths glm (matrix.vec3 0) (matrix.vec3 1) (matrix.vec3 2)
  { position := matrix.vec3 3
    scale := scale
    rotation := quaternionFromMatrix glm (normalizedBasis glm scale (matrix.vec3 0) (matrix.vec3 1) (matrix.vec3 2)) }

end Code

section Documented
variable {F : Type} [Field F]

def axisOf : Nat → Axis
  | 0 => .x
  | 1 => .y
  | _ => .z

/-- A matrix of three as one of four. -/
def widen (m : Mat3 F) : Mat4 F := fun col row =>
  if col = 3 ∨ row = 3 then (if col = row then 1 else 0) else m (axisOf col) (axisOf row)

variable [LinearOrder F]

/-- The search of quat_cast for the greatest of its four numbers, the real one's first. -/
def biggest (m : Mat3 F) : Coordinate × F :=
  let fourXSquaredMinus1 := m .x .x - m .y .y - m .z .z
  let fourYSquaredMinus1 := m .y .y - m .x .x - m .z .z
  let fourZSquaredMinus1 := m .z .z - m .x .x - m .y .y
  let fourWSquaredMinus1 := m .x .x + m .y .y + m .z .z
  let found := (Coordinate.re, fourWSquaredMinus1)
  let found := if fourXSquaredMinus1 > found.2 then (.im .x, fourXSquaredMinus1) else found
  let found := if fourYSquaredMinus1 > found.2 then (.im .y, fourYSquaredMinus1) else found
  if fourZSquaredMinus1 > found.2 then (.im .z, fourZSquaredMinus1) else found

def quatCastFormula (sqrt : F → F) (m : Mat3 F) : Quat F :=
  let biggestVal := sqrt ((biggest m).2 + 1) * 0.5
  let mult := 0.25 / biggestVal
  match (biggest m).1 with
  | .re => ⟨biggestVal, (m .y .z - m .z .y) * mult, (m .z .x - m .x .z) * mult, (m .x .y - m .y .x) * mult⟩
  | .im .x => ⟨(m .y .z - m .z .y) * mult, biggestVal, (m .x .y + m .y .x) * mult, (m .z .x + m .x .z) * mult⟩
  | .im .y => ⟨(m .z .x - m .x .z) * mult, (m .x .y + m .y .x) * mult, biggestVal, (m .y .z + m .z .y) * mult⟩
  | .im .z => ⟨(m .x .y - m .y .x) * mult, (m .z .x + m .x .z) * mult, (m .y .z + m .z .y) * mult, biggestVal⟩

/-- What glm says of the functions over exact numbers, in the places that are looked at. -/
structure GlmMatrices.Documented (glm : GlmMatrices F) (sqrt : F → F) : Prop where
  dot : ∀ a b, glm.dot a b = a.x * b.x + a.y * b.y + a.z * b.z
  cross : ∀ a b, glm.cross a b = ⟨a.y * b.z - b.y * a.z, a.z * b.x - b.z * a.x, a.x * b.y - b.x * a.y⟩
  length : ∀ v, glm.length v = sqrt (v.x * v.x + v.y * v.y + v.z * v.z)
  divide : ∀ v n, glm.divide v n = ⟨v.x / n, v.y / n, v.z / n⟩
  multiply : ∀ a b, ∀ col < 4, ∀ row < 4, glm.multiply a b col row =
    a 0 row * b col 0 + a 1 row * b col 1 + a 2 row * b col 2 + a 3 row * b col 3
  mat4 : ∀ n, ∀ col < 4, ∀ row < 4, glm.mat4 n col row = if col = row then n else 0
  mat3 : ∀ n, glm.mat3 n = fun c r => if c = r then n else 0
  translate : ∀ m v, ∀ col < 4, ∀ row < 4, glm.translate m v col row =
    if col = 3 then m 0 row * v.x + m 1 row * v.y + m 2 row * v.z + m 3 row else m col row
  scale : ∀ m v, ∀ col < 4, ∀ row < 4, glm.scale m v col row =
    if col = 3 then m col row else m col row * v.along (axisOf col)
  toMat4 : ∀ q, ∀ col < 4, ∀ row < 4, glm.toMat4 q col row = widen (turned q) col row
  quatCast : ∀ m, glm.quatCast m = quatCastFormula sqrt m

end Documented

end TgeCore.Math
