import ParticlePatterns.Number.Decimal

/-!
# Shortest decimals

A binary number `mantissa · 2 ^ exponent` stands for every real that rounds to
it. `Binary.shortest` finds, on the coarsest decimal grid that has a point among
these reals, the point nearest to the number.
-/

set_option autoImplicit false

namespace ParticlePatterns

inductive Tie
  | up
  | even
deriving DecidableEq, Repr

structure Binary where
  mantissa : Nat
  exponent : Int
  /-- The next number below is only half as far away as the next above. -/
  narrowBelow : Bool
deriving DecidableEq, Repr

namespace Binary

def unit (b : Binary) (grid : Int) : Nat :=
  Nat.pow 2 b.exponent.toNat * Nat.pow 10 (-grid).toNat

def scale (b : Binary) (grid : Int) : Nat :=
  Nat.pow 2 (-b.exponent).toNat * Nat.pow 10 grid.toNat

/-- Whether `c · 10 ^ grid` rounds to the number: ends of the interval count for
even mantissas. -/
def Rounds (b : Binary) (grid : Int) (c : Nat) : Prop :=
  let step := b.unit grid
  let point := 4 * c * b.scale grid
  let low := 4 * b.mantissa * step - (if b.narrowBelow then step else 2 * step)
  let high := 4 * b.mantissa * step + 2 * step
  if b.mantissa % 2 = 0 then low ≤ point ∧ point ≤ high else low < point ∧ point < high

instance (b : Binary) (grid : Int) (c : Nat) : Decidable (b.Rounds grid c) := by
  unfold Rounds; infer_instance

def takesBelow (tie : Tie) (num den : Nat) : Bool :=
  let twice := 2 * (num % den)
  decide (twice < den) || (decide (twice = den) && tie == .even && num / den % 2 == 0)

def onGrid? (b : Binary) (tie : Tie) (grid : Int) : Option Decimal :=
  let num := b.mantissa * b.unit grid
  let den := b.scale grid
  let below := num / den
  match decide (b.Rounds grid below), decide (b.Rounds grid (below + 1)) with
  | true, true => some ⟨if takesBelow tie num den then below else below + 1, grid⟩
  | true, false => some ⟨below, grid⟩
  | false, true => some ⟨below + 1, grid⟩
  | false, false => none

def search (b : Binary) (tie : Tie) : Nat → Int → Option Decimal
  | 0, _ => none
  | fuel + 1, grid =>
      match b.onGrid? tie grid with
      | some d => some d
      | none => b.search tie fuel (grid - 1)

def coarsestGrid (b : Binary) : Int :=
  ((b.mantissa.log2 : Int) + b.exponent) * 30103 / 100000 + 2

def exact (b : Binary) : Decimal :=
  ⟨b.mantissa * Nat.pow 2 b.exponent.toNat * Nat.pow 5 (-b.exponent).toNat, min b.exponent 0⟩

def shortest (tie : Tie) (b : Binary) : Decimal :=
  if b.mantissa = 0 then ⟨0, 0⟩ else (b.search tie 24 b.coarsestGrid).getD b.exact

def toFixed (b : Binary) (places : Nat) : List Char :=
  let grid : Int := -(places : Int)
  Decimal.fixedPoint (roundHalfEven (b.mantissa * b.unit grid) (b.scale grid)) places

end Binary

end ParticlePatterns
