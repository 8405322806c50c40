import Mathlib
import ParticlePatterns.Number.Double
import ParticlePatterns.Proofs.Number.Exact

/-!
# Signs

Every defined scalar lies on one side of zero, zero itself on both and infinity above. Exact
numbers and machine numbers keep to this.
-/

set_option autoImplicit false

namespace ParticlePatterns

class Scalar.Signed (α : Type) [Scalar α] : Prop where
  zero_le_zero : (0 : α) ≤ 0
  /-- Only what is undefined is not below or equal to itself. -/
  nonpos_or_nonneg (x : α) : x ≤ x → x ≤ 0 ∨ 0 ≤ x
  zero_le_infinity : (0 : α) ≤ Scalar.infinity

/-- What is cut below at zero is not negative, even where it was undefined. -/
theorem Scalar.zero_le_max_zero {α : Type} [Scalar α] [Scalar.Signed α] (x : α) :
    0 ≤ Scalar.max x 0 := by
  unfold Scalar.max
  by_cases low : x ≤ 0
  · rw [if_pos low]
    exact Scalar.Signed.zero_le_zero
  · rw [if_neg low]
    by_cases defined : x ≤ x
    · rw [if_pos defined]
      exact (Scalar.Signed.nonpos_or_nonneg x defined).resolve_left low
    · rw [if_neg defined]
      exact Scalar.Signed.zero_le_zero

instance : Scalar.Signed Exact where
  zero_le_zero := by simp
  nonpos_or_nonneg x defined := by
    rw [Exact.zero_eq_real]
    match x, defined with
    | .real x, _ => exact le_total x 0
    | .infinite true, _ => exact .inl rfl
    | .infinite false, _ => exact .inr rfl
  zero_le_infinity := by simp

namespace Machine

open Float.Model (UnpackedFloat)

theorem le_iff {x y : Float} : x ≤ y ↔ x.toModel.unpack.le y.toModel.unpack = true := by
  show decide (x.toModel.unpack.le y.toModel.unpack = true) = true ↔ _
  rw [decide_eq_true_eq]

theorem zero_unpack : (Scalar.ofNat 0 : Float).toModel.unpack = .zero .positive := rfl

/-- Zero stands between all the numbers that are not below it and all that are not above. -/
theorem le_zero_or_zero_le (x : UnpackedFloat) (hx : x.le x = true) (sign : UnpackedFloat.Sign) :
    x.le (.zero sign) = true ∨ (UnpackedFloat.zero sign).le x = true := by
  match x with
  | .notANumber => cases hx
  | .infinity .positive => exact .inr rfl
  | .infinity .negative => exact .inl rfl
  | .zero _ => exact .inl rfl
  | .finite .positive .. => exact .inr rfl
  | .finite .negative .. => exact .inl rfl

end Machine

instance : Scalar.Signed Float where
  zero_le_zero := Machine.le_iff.2 rfl
  nonpos_or_nonneg x defined := by
    have sides := Machine.le_zero_or_zero_le x.toModel.unpack (Machine.le_iff.1 defined) .positive
    rw [← Machine.zero_unpack] at sides
    exact sides.imp Machine.le_iff.2 Machine.le_iff.2
  zero_le_infinity := Machine.le_iff.2 rfl

end ParticlePatterns
