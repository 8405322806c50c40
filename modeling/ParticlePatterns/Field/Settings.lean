import ParticlePatterns.Random

/-!
# Settings of a field
-/

set_option autoImplicit false

namespace ParticlePatterns

structure Settings where
  seed : UInt64
  capacity : UInt64
deriving DecidableEq, Repr

namespace Settings

def standard : Settings := ⟨Rng.standardSeed, 256⟩

def IsValid (c : Settings) : Prop :=
  c.seed ≠ 0

instance (c : Settings) : Decidable c.IsValid :=
  inferInstanceAs (Decidable (_ ≠ _))

/-- How many particles of 112 bytes there can be room for, below `2 ^ 63` bytes in all. -/
def maxCapacity : Nat := 82351536043346212

def HasRoom (c : Settings) : Prop :=
  c.capacity.toNat ≤ maxCapacity

instance (c : Settings) : Decidable c.HasRoom :=
  inferInstanceAs (Decidable (_ ≤ _))

end Settings

end ParticlePatterns
