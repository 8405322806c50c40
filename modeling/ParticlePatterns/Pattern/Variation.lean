import ParticlePatterns.Behavior.Basic
import ParticlePatterns.Term.Basic

/-!
# Variation

The ways in which a value varies: spread over the members of a batch by their
position, or drawn at random.
-/

set_option autoImplicit false

namespace ParticlePatterns

inductive Mode
  | each
  /-- The random state, anew every time. -/
  | random
deriving DecidableEq, Repr

def Mode.bracket : Mode → Bracket
  | each => .each
  | random => .random

namespace Gen

variable {α T : Type}

def select (mode : Mode) (gens : List (Gen α T)) : Gen α T :=
  fun s r =>
    match mode with
    | .each => match gens[s.index % gens.length]? with
      | some g => g s r
      | none => .error .noAlternative
    | .random =>
      let (index, r) := r.index gens.length
      match gens[index.getD 0]? with
      | some g => g s r
      | none => .error .noAlternative

variable [Scalar α]

def share (s : Sibling) : α :=
  if s.total ≤ 1 then 1 / 2
  else Scalar.ofNat s.index / Scalar.ofNat (s.total - 1)

def range (mode : Mode) (low high : Gen α α) : Gen α α :=
  low.bind fun a => high.bind fun b => fun s r =>
    match mode with
    | .each => .ok (Scalar.lerp a b (share s), r)
    | .random =>
      let (u, r) : α × Rng := r.unit
      .ok (Scalar.lerp a b u, r)

/-- Degrees of a member of a batch that is spread around the circle. A pair stands to
both sides of the forward axis. -/
def bearing (s : Sibling) : α :=
  if s.total = 0 then 0
  else
    let degrees : α := 360 * Scalar.ofNat s.index / Scalar.ofNat s.total
    if s.total = 2 then degrees + 90 else degrees

def angle (mode : Mode) : Gen α α :=
  fun s r =>
    match mode with
    | .each => .ok (bearing s, r)
    | .random => .ok (r.between 0 360)

def countOf (x : α) : Nat :=
  if Scalar.IsFinite x ∧ 0 < x then Scalar.roundNat x else 0

end Gen

end ParticlePatterns
