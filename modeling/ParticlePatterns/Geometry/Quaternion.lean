import ParticlePatterns.Geometry.Vector

/-!
# Orientations

Quaternions of norm 1 as turns of space. A product turns by its right factor
first, seen from the frame of the left one.
-/

set_option autoImplicit false

namespace ParticlePatterns

structure Quaternion (α : Type) where
  x : α
  y : α
  z : α
  w : α
deriving DecidableEq, Repr

namespace Quaternion

variable {α : Type} [Scalar α]

def identity : Quaternion α := ⟨0, 0, 0, 1⟩

def mul (p q : Quaternion α) : Quaternion α where
  x := p.w * q.x + p.x * q.w + p.y * q.z - p.z * q.y
  y := p.w * q.y - p.x * q.z + p.y * q.w + p.z * q.x
  z := p.w * q.z + p.x * q.y - p.y * q.x + p.z * q.w
  w := p.w * q.w - p.x * q.x - p.y * q.y - p.z * q.z

def normSquared (q : Quaternion α) : α :=
  q.x * q.x + q.y * q.y + q.z * q.z + q.w * q.w

def scale (q : Quaternion α) (k : α) : Quaternion α :=
  ⟨q.x * k, q.y * k, q.z * k, q.w * k⟩

def normalize (q : Quaternion α) : Quaternion α :=
  q.scale (1 / Scalar.sqrt q.normSquared)

/-- Turns by three angles in radians, about the axes x, y and z in this order, each in
the frame turned so far. -/
def ofEuler (a b c : α) : Quaternion α :=
  let half : α := 1 / 2
  let ti := a * half
  let tj := -b * half
  let th := c * half
  let si := Scalar.sin ti
  let ci := Scalar.cos ti
  let sj := Scalar.sin tj
  let cj := Scalar.cos tj
  let sh := Scalar.sin th
  let ch := Scalar.cos th
  let cc := ci * ch
  let cs := ci * sh
  let sc := si * ch
  let ss := si * sh
  { x := cj * sc - sj * cs
    y := (cj * ss + sj * cc) * -1
    z := cj * cs - sj * sc
    w := cj * cc + sj * ss }

def ofDegrees (v : Vec3 α) : Quaternion α :=
  ofEuler (Scalar.radians v.x) (Scalar.radians v.y) (Scalar.radians v.z)

def rotate (q : Quaternion α) (v : Vec3 α) : Vec3 α :=
  let b : Vec3 α := ⟨q.x, q.y, q.z⟩
  ((v.scale (q.w * q.w - b.dot b)).add (b.scale (v.dot b * 2))).add ((b.cross v).scale (q.w * 2))

end Quaternion

end ParticlePatterns
