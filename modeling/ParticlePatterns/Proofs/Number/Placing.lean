import Mathlib

/-!
# Rounding of doubles

A multiple of the smallest double, given by its number of times, is rounded to the nearest of the
53 leading bits. Doubles are counted upwards from zero, and a greater number does not get a lower
place. The rounding of the machine finds this place, whatever exponent the number came with.
-/

set_option autoImplicit false

namespace ParticlePatterns.Machine

open Float.Model (UnpackedFloat Format)
open Float.Model.UnpackedFloat (Accuracy ExtendedMantissa Sign)

def nearest (m n : Nat) : Nat :=
  if 2 * (m % 2 ^ n) < 2 ^ n then m / 2 ^ n
  else if 2 * (m % 2 ^ n) = 2 ^ n then m / 2 ^ n + m / 2 ^ n % 2
  else m / 2 ^ n + 1

/-- The two residual bits tell how twice the remainder compares to the divisor. -/
structure Encodes (m n : Nat) (em : ExtendedMantissa) : Prop where
  mantissa : em.mantissa = m / 2 ^ n
  half : em.roundBit = true ↔ 2 ^ n ≤ 2 * (m % 2 ^ n)
  rest : em.stickyBit = true ↔ 2 * (m % 2 ^ n) % 2 ^ n ≠ 0

theorem encodes_start (m : Nat) : Encodes m 0 (.ofMantissaAndAccuracy m .exact) := by
  refine ⟨?_, ?_, ?_⟩ <;> simp [ExtendedMantissa.ofMantissaAndAccuracy, Nat.mod_one]

theorem Encodes.shift {m n : Nat} {em : ExtendedMantissa} (h : Encodes m n em) :
    Encodes m (n + 1) em.shiftRightOne := by
  have positive : 0 < 2 ^ n := Nat.two_pow_pos n
  have below : m % 2 ^ n < 2 ^ n := Nat.mod_lt _ positive
  have split : m % 2 ^ (n + 1) = 2 ^ n * (m / 2 ^ n % 2) + m % 2 ^ n := by
    rw [Nat.pow_succ, Nat.mod_mul, Nat.add_comm]
  have double : 2 ^ (n + 1) = 2 * 2 ^ n := by rw [Nat.pow_succ, Nat.mul_comm]
  have bit : m / 2 ^ n % 2 = 0 ∨ m / 2 ^ n % 2 = 1 := by omega
  refine ⟨?_, ?_, ?_⟩
  · rw [ExtendedMantissa.shiftRightOne, h.mantissa, Nat.pow_succ, Nat.div_div_eq_div_mul]
  · show (em.mantissa % 2 != 0) = true ↔ 2 ^ (n + 1) ≤ 2 * (m % 2 ^ (n + 1))
    rw [h.mantissa, split, double, bne_iff_ne]
    obtain zero | one := bit
    · rw [zero]
      omega
    · rw [one]
      omega
  · have left : 2 * (m % 2 ^ (n + 1)) % 2 ^ (n + 1) = 2 * (m % 2 ^ n) := by
      rw [split, double]
      obtain zero | one := bit
      · rw [zero, Nat.mul_zero, Nat.zero_add, Nat.mod_eq_of_lt (by omega)]
      · rw [one, Nat.mul_one, Nat.mul_add, Nat.add_mod_left, Nat.mod_eq_of_lt (by omega)]
    rw [left, ExtendedMantissa.shiftRightOne, Bool.or_eq_true, h.half, h.rest]
    by_cases low : 2 * (m % 2 ^ n) < 2 ^ n
    · rw [Nat.mod_eq_of_lt low]
      omega
    · omega

theorem Encodes.roundedMantissa {m n : Nat} {em : ExtendedMantissa} (h : Encodes m n em) :
    em.roundedMantissa = nearest m n := by
  obtain ⟨mantissa, half, rest⟩ := em
  have positive : 0 < 2 ^ n := Nat.two_pow_pos n
  have below : m % 2 ^ n < 2 ^ n := Nat.mod_lt _ positive
  have whole := h.mantissa
  have above := h.half
  have sticky := h.rest
  simp only at whole above sticky
  unfold nearest
  by_cases low : 2 * (m % 2 ^ n) < 2 ^ n
  · rw [if_pos low]
    cases half with
    | true => exact absurd (above.1 rfl) (by omega)
    | false => cases rest <;> exact whole
  · rw [if_neg low]
    have upper : 2 * (m % 2 ^ n) % 2 ^ n = 2 * (m % 2 ^ n) - 2 ^ n := by
      rw [Nat.mod_eq_sub_mod (by omega), Nat.mod_eq_of_lt (by omega)]
    rw [upper] at sticky
    cases half with
    | false => exact absurd (above.2 (by omega)) Bool.false_ne_true
    | true =>
      cases rest with
      | false =>
        have tie : 2 * (m % 2 ^ n) = 2 ^ n := by
          by_contra apart
          exact absurd (sticky.2 (by omega)) Bool.false_ne_true
        rw [if_pos tie, ← whole]
        rfl
      | true =>
        have apart := sticky.1 rfl
        rw [if_neg (by omega), ← whole]
        rfl

theorem encodes_shifts (m n : Nat) :
    Encodes m n (ExtendedMantissa.ofMantissaAndAccuracy m .exact >>> n) := by
  show Encodes m n (n.repeat ExtendedMantissa.shiftRightOne _)
  induction n with
  | zero => exact encodes_start m
  | succ n ih => exact ih.shift

theorem nearest_scale (m n j : Nat) : nearest (m * 2 ^ j) (n + j) = nearest m n := by
  have positive : 0 < 2 ^ j := Nat.two_pow_pos j
  unfold nearest
  have quotient : m * 2 ^ j / 2 ^ (n + j) = m / 2 ^ n := by
    rw [Nat.pow_add, Nat.mul_div_mul_right _ _ positive]
  have remainder : m * 2 ^ j % 2 ^ (n + j) = m % 2 ^ n * 2 ^ j := by
    rw [Nat.pow_add, Nat.mul_mod_mul_right]
  rw [quotient, remainder, Nat.pow_add, ← Nat.mul_assoc]
  simp only [Nat.mul_lt_mul_right positive, Nat.mul_left_inj positive.ne']

@[simp]
theorem nearest_zero (m : Nat) : nearest m 0 = m := by
  simp [nearest, Nat.mod_one]

theorem nearest_bounds (m n : Nat) : m / 2 ^ n ≤ nearest m n ∧ nearest m n ≤ m / 2 ^ n + 1 := by
  unfold nearest
  split_ifs <;> omega

theorem nearest_mono {m m' : Nat} (n : Nat) (h : m ≤ m') : nearest m n ≤ nearest m' n := by
  obtain lower | same := (Nat.div_le_div_right (c := 2 ^ n) h).lt_or_eq
  · exact (nearest_bounds m n).2.trans ((Nat.succ_le_of_lt lower).trans (nearest_bounds m' n).1)
  · have rests : m % 2 ^ n ≤ m' % 2 ^ n := by
      have one := Nat.div_add_mod m (2 ^ n)
      have other := Nat.div_add_mod m' (2 ^ n)
      rw [same] at one
      omega
    unfold nearest
    rw [same]
    split_ifs <;> omega

def excess (v : Nat) : Nat :=
  v.log2 - 52

def place (v : Nat) : Nat :=
  excess v * 2 ^ 52 + nearest v (excess v)

theorem lt_of_excess (v : Nat) : v / 2 ^ excess v < 2 ^ 53 := by
  rw [Nat.div_lt_iff_lt_mul (Nat.two_pow_pos _), ← Nat.pow_add]
  refine Nat.lt_log2_self.trans_le (Nat.pow_le_pow_right (by omega) ?_)
  unfold excess
  omega

theorem le_of_excess {v : Nat} (h : 0 < excess v) : 2 ^ 52 ≤ v / 2 ^ excess v := by
  unfold excess at h ⊢
  have large : v ≠ 0 := by
    rintro rfl
    simp at h
  rw [Nat.le_div_iff_mul_le (Nat.two_pow_pos _), ← Nat.pow_add]
  have whole : 52 + (v.log2 - 52) = v.log2 := by omega
  rw [whole]
  exact Nat.log2_self_le large

theorem excess_mono {v v' : Nat} (h : v ≤ v') : excess v ≤ excess v' := by
  obtain rfl | positive := v.eq_zero_or_pos
  · simp [excess]
  · have bits : v.log2 ≤ v'.log2 :=
      (Nat.le_log2 (by omega)).2 ((Nat.log2_self_le (by omega)).trans h)
    exact Nat.sub_le_sub_right bits 52

theorem place_mono {v v' : Nat} (h : v ≤ v') : place v ≤ place v' := by
  unfold place
  obtain fewer | same := (excess_mono h).lt_or_eq
  · have upper := (nearest_bounds v (excess v)).2
    have lower := (nearest_bounds v' (excess v')).1
    have small := lt_of_excess v
    have large := le_of_excess (v := v') (by omega)
    have step : excess v * 2 ^ 52 + 2 ^ 52 ≤ excess v' * 2 ^ 52 := by
      rw [← Nat.succ_mul]
      exact Nat.mul_le_mul_right _ fewer
    omega
  · rw [same]
    exact Nat.add_le_add_left (nearest_mono _ h) _

@[simp]
theorem place_zero : place 0 = 0 := rfl

theorem log2_mul_two_pow {m : Nat} (pos : 0 < m) (k : Nat) : (m * 2 ^ k).log2 = m.log2 + k := by
  rw [Nat.log2_eq_iff (Nat.mul_pos pos (Nat.two_pow_pos k)).ne', Nat.pow_add, Nat.add_right_comm,
    Nat.pow_add]
  exact ⟨Nat.mul_le_mul_right _ (Nat.log2_self_le pos.ne'),
    Nat.mul_lt_mul_of_pos_right Nat.lt_log2_self (Nat.two_pow_pos k)⟩

/-- A mantissa and how far its exponent is above the least one, which it is unless the mantissa has
all its bits. -/
structure Canonical (m k : Nat) : Prop where
  pos : 0 < m
  small : m < 2 ^ 53
  full : 0 < k → 2 ^ 52 ≤ m

namespace Canonical

variable {m k : Nat}

theorem excess (h : Canonical m k) : excess (m * 2 ^ k) = k := by
  have upper := (Nat.log2_lt h.pos.ne').2 h.small
  unfold Machine.excess
  rw [log2_mul_two_pow h.pos]
  obtain rfl | positive := k.eq_zero_or_pos
  · omega
  · have lower := (Nat.le_log2 h.pos.ne').2 (h.full positive)
    omega

theorem place (h : Canonical m k) : place (m * 2 ^ k) = k * 2 ^ 52 + m := by
  have last := nearest_scale m 0 k
  rw [Nat.zero_add, nearest_zero] at last
  rw [Machine.place, h.excess, last]

end Canonical

theorem targetExponent_eq {m : Nat} (pos : 0 < m) (k : Nat) :
    Format.binary64.targetExponent (Float.Model.totalExponent m (k - 1074)) =
      excess (m * 2 ^ k) - 1074 := by
  show max ((m.log2 : Int) + 1 + (k - 1074) - 53) (-1074) = _
  unfold excess
  rw [log2_mul_two_pow pos]
  omega

theorem shiftToTargetExponent_eq {m : Nat} (pos : 0 < m) (k : Nat) :
    UnpackedFloat.shiftToTargetExponent Format.binary64 m (k - 1074) .exact =
      (ExtendedMantissa.ofMantissaAndAccuracy m .exact >>> (excess (m * 2 ^ k) - k),
        ((max (excess (m * 2 ^ k)) k : Nat) : Int) - 1074) := by
  unfold UnpackedFloat.shiftToTargetExponent UnpackedFloat.shiftToExponent
  simp only [targetExponent_eq pos, Prod.mk.injEq]
  refine ⟨congrArg _ ?_, ?_⟩ <;> omega

/-- A mantissa that was rounded up to a power of two has one bit too many. Without it, the exponent
is the next one. -/
theorem exists_canonical {r k : Nat} (pos : 0 < r) (small : r ≤ 2 ^ 53)
    (large : 0 < k → 2 ^ 52 ≤ r) :
    ∃ m k' : Nat,
      (UnpackedFloat.shiftToTargetExponent Format.binary64 r (k - 1074) .exact).1.mantissa = m ∧
      (UnpackedFloat.shiftToTargetExponent Format.binary64 r (k - 1074) .exact).2 = k' - 1074 ∧
      Canonical m k' ∧ k' * 2 ^ 52 + m = k * 2 ^ 52 + r := by
  rw [shiftToTargetExponent_eq pos]
  refine ⟨_, _, rfl, rfl, ?_⟩
  rw [(encodes_shifts r _).mantissa]
  obtain below | rfl := small.lt_or_eq
  · have canonical : Canonical r k := ⟨pos, below, large⟩
    rw [canonical.excess, Nat.sub_self, Nat.max_self, Nat.pow_zero, Nat.div_one]
    exact ⟨canonical, rfl⟩
  · have bits : excess (2 ^ 53 * 2 ^ k) = k + 1 := by
      unfold excess
      rw [← Nat.pow_add, Nat.log2_two_pow]
      omega
    rw [bits, Nat.add_sub_cancel_left, Nat.max_eq_left (Nat.le_succ k)]
    exact ⟨⟨by decide, by decide, fun _ => by decide⟩, by omega⟩

theorem roundWithAccuracy_eq (s : Sign) {m k : Nat} (pos : 0 < m) (h : k ≤ excess (m * 2 ^ k)) :
    ∃ m' k' : Nat, ∃ canonical : Canonical m' k',
      UnpackedFloat.roundWithAccuracy Format.binary64 s m (k - 1074) .exact =
        .finite s m' (k' - 1074) canonical.pos ∧ k' * 2 ^ 52 + m' = place (m * 2 ^ k) := by
  have value : nearest m (excess (m * 2 ^ k) - k) = nearest (m * 2 ^ k) (excess (m * 2 ^ k)) := by
    rw [← nearest_scale m _ k, Nat.sub_add_cancel h]
  have bounds := nearest_bounds (m * 2 ^ k) (excess (m * 2 ^ k))
  have small := lt_of_excess (m * 2 ^ k)
  have large := le_of_excess (v := m * 2 ^ k)
  have some : 0 < nearest (m * 2 ^ k) (excess (m * 2 ^ k)) := by
    obtain none | positive := (excess (m * 2 ^ k)).eq_zero_or_pos
    · rw [none, nearest_zero]
      exact Nat.mul_pos pos (Nat.two_pow_pos k)
    · have := large positive
      omega
  obtain ⟨m', k', mantissa, exponent, canonical, rank⟩ :=
    exists_canonical some (by omega) fun positive => (large positive).trans bounds.1
  refine ⟨m', k', canonical, ?_, rank⟩
  unfold UnpackedFloat.roundWithAccuracy
  simp only [shiftToTargetExponent_eq pos, (encodes_shifts m _).roundedMantissa, value,
    Nat.max_eq_left h, mantissa, exponent]
  rw [dif_neg canonical.pos.ne']

/-- Rounding finds the place, also of a mantissa that is shorter than it has to be. -/
theorem round_eq (s : Sign) {m : Nat} (pos : 0 < m) (k : Nat) :
    ∃ m' k' : Nat, ∃ canonical : Canonical m' k',
      UnpackedFloat.round Format.binary64 s m (k - 1074) =
        .finite s m' (k' - 1074) canonical.pos ∧ k' * 2 ^ 52 + m' = place (m * 2 ^ k) := by
  unfold UnpackedFloat.round UnpackedFloat.decreaseExponent
  simp only [targetExponent_eq pos, Nat.shiftLeft_eq]
  obtain lower | higher := Nat.le_total k (excess (m * 2 ^ k))
  · have shift : ((k : Int) - 1074 - (excess (m * 2 ^ k) - 1074)).toNat = 0 := by omega
    rw [shift, Nat.pow_zero, Nat.mul_one, Nat.cast_zero, Int.sub_zero]
    exact roundWithAccuracy_eq s pos lower
  · generalize bits : excess (m * 2 ^ k) = t at higher ⊢
    have same : m * 2 ^ (k - t) * 2 ^ t = m * 2 ^ k := by
      rw [Nat.mul_assoc, ← Nat.pow_add, Nat.sub_add_cancel higher]
    have shift : ((k : Int) - 1074 - (t - 1074)).toNat = k - t := by omega
    have exponent : (k : Int) - 1074 - (k - t : Nat) = t - 1074 := by omega
    rw [shift, exponent, ← same]
    exact roundWithAccuracy_eq s (Nat.mul_pos pos (Nat.two_pow_pos _)) (by rw [same, bits])

end ParticlePatterns.Machine
