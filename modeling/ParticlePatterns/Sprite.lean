import ParticlePatterns.Geometry.Quaternion

/-!
# Sprites

The visible state of a particle and the ways to change it. Movement is expressed
in the frame of the sprite.
-/

set_option autoImplicit false

namespace ParticlePatterns

inductive Model
  | arrow
  | claw
  | orb
deriving DecidableEq, Repr

namespace Model

def all : List Model := [.arrow, .claw, .orb]

def name : Model → String
  | arrow => "arrow"
  | claw => "claw"
  | orb => "orb"

end Model

inductive Property
  | speed
  | opacity
  | hue
deriving DecidableEq, Repr

namespace Property

def all : List Property := [.speed, .opacity, .hue]

def name : Property → String
  | speed => "speed"
  | opacity => "opacity"
  | hue => "hue"

end Property

inductive Modification
  | set
  | add
  | multiply
deriving DecidableEq, Repr

def Modification.apply {α : Type} [Scalar α] (m : Modification) (current operand : α) : α :=
  match m with
  | set => operand
  | add => current + operand
  | multiply => current * operand

structure Sprite (α : Type) where
  position : Vec3 α
  rotation : Quaternion α
  speed : α
  opacity : α
  hue : α
  /-- Raised when the sprite should go; what that means is up to who draws it. -/
  closed : Bool
  model : Model
deriving Repr

namespace Sprite

variable {α : Type} [Scalar α]

def initial : Sprite α where
  position := Vec3.zero
  rotation := Quaternion.identity
  speed := 0
  opacity := 1
  hue := 0
  closed := false
  model := .arrow

def get (s : Sprite α) : Property → α
  | .speed => s.speed
  | .opacity => s.opacity
  | .hue => s.hue

def set (s : Sprite α) (p : Property) (value : α) : Sprite α :=
  match p with
  | .speed => { s with speed := value }
  | .opacity => { s with opacity := value }
  | .hue => { s with hue := value }

def modify (s : Sprite α) (p : Property) (m : Modification) (operand : α) : Sprite α :=
  s.set p (m.apply (s.get p) operand)

def translate (s : Sprite α) (offset : Vec3 α) : Sprite α :=
  { s with position := s.position.add (s.rotation.rotate offset) }

def rotate (s : Sprite α) (degrees : Vec3 α) : Sprite α :=
  { s with rotation := (s.rotation.mul (Quaternion.ofDegrees degrees)).normalize }

def child (s : Sprite α) : Sprite α :=
  { s with opacity := 1, closed := false }

end Sprite

end ParticlePatterns
