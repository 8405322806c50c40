/-!
# Numerals

A number type that has a decimal notation: an optional sign, digits, an
optional fraction and an optional exponent.
-/

set_option autoImplicit false

namespace ParticlePatterns

class Numeral (ν : Type) where
  /-- The number a literal denotes; none if it is too large to be finite. -/
  read? : List Char → Option ν
  /-- The text of a number; of a finite one, a literal that denotes it. -/
  write : ν → List Char
  /-- The text of a number in messages about data, where large and small ones have an
  exponent. -/
  writeScientific : ν → List Char
  /-- Text with a fixed number of places, an exact half going to the even neighbour. -/
  writeFixed : (places : Nat) → ν → List Char
  isFinite : ν → Bool
  /-- The number nearest to an integer. -/
  ofInt : Int → ν

end ParticlePatterns
