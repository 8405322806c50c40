/-!
# Scalars

Times, distances, angles and colours are all scalars. Everything that moves a
particle is written over this class, so it can be run on machine numbers and
reasoned about over exact ones. Comparisons may fail to be total: a value that
is not below or equal to itself is *undefined*, and the derived operations say
what becomes of it.
-/

set_option autoImplicit false

namespace ParticlePatterns

class Scalar (α : Type) extends Add α, Sub α, Mul α, Div α, Neg α, LT α, LE α where
  decideLT : (a b : α) → Decidable (a < b)
  decideLE : (a b : α) → Decidable (a ≤ b)
  /-- The scalar nearest to a natural number. -/
  ofNat : Nat → α
  /-- Above every finite scalar; the lifespan of what never ends by itself. -/
  infinity : α
  pi : α
  /-- The largest natural number not above a scalar; zero for negative and undefined ones. -/
  floorNat : α → Nat
  /-- The nearest natural number, a half going up; zero for negative and undefined ones. -/
  roundNat : α → Nat
  sqrt : α → α
  sin : α → α
  cos : α → α
  pow : α → α → α

namespace Scalar

variable {α : Type} [Scalar α]

instance (a b : α) : Decidable (a < b) := decideLT a b

instance (a b : α) : Decidable (a ≤ b) := decideLE a b

instance (priority := low) literal (n : Nat) : OfNat α n := ⟨ofNat n⟩

/-- The larger operand, the second of equal ones; an undefined operand gives way. -/
def max (a b : α) : α :=
  if a ≤ b then b else if a ≤ a then a else b

/-- The smaller operand, the second of equal ones; an undefined operand gives way. -/
def min (a b : α) : α :=
  if b ≤ a then b else if a ≤ a then a else b

def clamp (a low high : α) : α :=
  if a < low then low else if high < a then high else a

def abs (a : α) : α :=
  if a < 0 then -a else a

def IsFinite (a : α) : Prop :=
  -infinity < a ∧ a < infinity

instance (a : α) : Decidable (IsFinite a) :=
  inferInstanceAs (Decidable (_ ∧ _))

def radians (degrees : α) : α :=
  degrees * (pi / 180)

def lerp (a b ratio : α) : α :=
  a * (1 - ratio) + b * ratio

end Scalar

end ParticlePatterns
