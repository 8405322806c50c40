import ParticlePatterns.Number.Scalar

/-!
# Reproducible randomness

A 64-bit state, mixed by three shifts at every draw. The same seed gives the same
draws everywhere; the zero state is never entered from another one.
-/

set_option autoImplicit false

namespace ParticlePatterns

structure Rng where
  state : UInt64
deriving DecidableEq, Repr

namespace Rng

def scramble (x : UInt64) : UInt64 :=
  let x := x ^^^ (x <<< 13)
  let x := x ^^^ (x >>> 7)
  x ^^^ (x <<< 17)

/-- Seed zero counts as one, since the zero state never changes. -/
def ofSeed (seed : UInt64) : Rng :=
  ⟨if seed = 0 then 1 else seed⟩

theorem ofSeed_state_ne_zero (seed : UInt64) : (ofSeed seed).state ≠ 0 := by
  unfold ofSeed
  by_cases h : seed = 0 <;> simp [h]

def standardSeed : UInt64 := 12345

def next (r : Rng) : UInt64 × Rng :=
  let x := scramble r.state
  (x, ⟨x⟩)

def index (r : Rng) (len : Nat) : Option Nat × Rng :=
  if len = 0 then (none, r)
  else
    let (x, r) := r.next
    (some (x.toNat % len), r)

theorem index_lt {r : Rng} {len i : Nat} (h : (r.index len).1 = some i) : i < len := by
  unfold index at h
  split at h
  · cases h
  · obtain rfl := Option.some.inj h
    exact Nat.mod_lt _ (Nat.pos_of_ne_zero (by assumption))

variable {α : Type} [Scalar α]

def unit (r : Rng) : α × Rng :=
  let (x, r) := r.next
  (Scalar.ofNat (x >>> 11).toNat / Scalar.ofNat (1 <<< 53), r)

def between (r : Rng) (low high : α) : α × Rng :=
  let (u, r) : α × Rng := r.unit
  (low + u * (high - low), r)

end Rng

end ParticlePatterns
