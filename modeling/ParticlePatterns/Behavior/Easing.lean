import ParticlePatterns.Number.Scalar

/-!
# Easing

How the effect of a behavior is spread over its lifespan. Every curve leads from
0 to 1 without ever falling.
-/

set_option autoImplicit false

namespace ParticlePatterns

inductive Easing
  | linear
  | easeIn
  | easeOut
  | easeInOut
deriving DecidableEq, Repr

namespace Easing

def all : List Easing := [.linear, .easeIn, .easeOut, .easeInOut]

def name : Easing → String
  | linear => "linear"
  | easeIn => "ease-in"
  | easeOut => "ease-out"
  | easeInOut => "ease-in-out"

variable {α : Type} [Scalar α]

def curve (e : Easing) (r : α) : α :=
  match e with
  | linear => r
  | easeIn => r * r
  | easeOut => 1 - (1 - r) * (1 - r)
  | easeInOut => if r < 1 / 2 then 2 * r * r else 1 - 2 * (1 - r) * (1 - r)

/-- Share of the lifespan that is over at local time `t`. A lifespan of zero is over as
soon as any time has passed. -/
def ratio (t lifespan : α) : α :=
  if lifespan ≤ 0 then if 0 < t then 1 else 0
  else Scalar.clamp (t / lifespan) 0 1

def progress (e : Easing) (t lifespan : α) : α :=
  e.curve (ratio t lifespan)

def delta (e : Easing) (a b lifespan : α) : α :=
  e.progress b lifespan - e.progress a lifespan

end Easing

end ParticlePatterns
