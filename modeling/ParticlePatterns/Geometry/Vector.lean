import ParticlePatterns.Number.Scalar

/-!
# Vectors in space
-/

set_option autoImplicit false

namespace ParticlePatterns

structure Vec3 (α : Type) where
  x : α
  y : α
  z : α
deriving DecidableEq, Repr

namespace Vec3

variable {α : Type} [Scalar α]

def zero : Vec3 α := ⟨0, 0, 0⟩

def add (a b : Vec3 α) : Vec3 α :=
  ⟨a.x + b.x, a.y + b.y, a.z + b.z⟩

def scale (a : Vec3 α) (k : α) : Vec3 α :=
  ⟨a.x * k, a.y * k, a.z * k⟩

def divide (a : Vec3 α) (k : α) : Vec3 α :=
  ⟨a.x / k, a.y / k, a.z / k⟩

def dot (a b : Vec3 α) : α :=
  a.x * b.x + a.y * b.y + a.z * b.z

def cross (a b : Vec3 α) : Vec3 α :=
  ⟨a.y * b.z - b.y * a.z, a.z * b.x - b.z * a.x, a.x * b.y - b.x * a.y⟩

def length (a : Vec3 α) : α :=
  Scalar.sqrt (a.dot a)

end Vec3

end ParticlePatterns
