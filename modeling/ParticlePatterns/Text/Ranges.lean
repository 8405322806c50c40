/-!
# Ranges of characters

A class of characters is kept as closed ranges of code points.
-/

set_option autoImplicit false

namespace ParticlePatterns.Text

abbrev Ranges : Type := List (Nat × Nat)

namespace Ranges

def contains (ranges : Ranges) (c : Char) : Bool :=
  ranges.any fun (low, high) => decide (low ≤ c.toNat) && decide (c.toNat ≤ high)

end Ranges

end ParticlePatterns.Text
