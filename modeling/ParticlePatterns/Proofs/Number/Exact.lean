import Mathlib
import ParticlePatterns.Number.Scalar

/-!
# Exact numbers

Scalars without rounding: the real numbers, two infinite ones, and what is undefined.
Operations are those of machine numbers apart from the rounding, except that zero has
no sign.
-/

set_option autoImplicit false

namespace ParticlePatterns

inductive Exact
  | undefined
  | infinite (negative : Bool)
  | real (x : ℝ)

noncomputable section

open scoped Classical

namespace Exact

instance : Coe ℝ Exact := ⟨real⟩

def neg : Exact → Exact
  | undefined => undefined
  | infinite n => infinite (!n)
  | real x => real (-x)

def add : Exact → Exact → Exact
  | real x, real y => real (x + y)
  | real _, infinite n => infinite n
  | infinite n, real _ => infinite n
  | infinite m, infinite n => if m = n then infinite m else undefined
  | _, _ => undefined

def mul : Exact → Exact → Exact
  | real x, real y => real (x * y)
  | real x, infinite n => if x = 0 then undefined else infinite (decide (x < 0) ^^ n)
  | infinite n, real x => if x = 0 then undefined else infinite (decide (x < 0) ^^ n)
  | infinite m, infinite n => infinite (m ^^ n)
  | _, _ => undefined

def div : Exact → Exact → Exact
  | real x, real y =>
      if y = 0 then if x = 0 then undefined else infinite (decide (x < 0)) else real (x / y)
  | real _, infinite _ => real 0
  | infinite n, real y => infinite (decide (y < 0) ^^ n)
  | _, _ => undefined

def LessEq : Exact → Exact → Prop
  | real x, real y => x ≤ y
  | real _, infinite n => n = false
  | infinite n, real _ => n = true
  | infinite m, infinite n => m = true ∨ n = false
  | _, _ => False

def Less : Exact → Exact → Prop
  | real x, real y => x < y
  | real _, infinite n => n = false
  | infinite n, real _ => n = true
  | infinite m, infinite n => m = true ∧ n = false
  | _, _ => False

/-- The exponent 0 and the base 1 give 1 whatever the other operand is. -/
def pow (a b : Exact) : Exact :=
  if b = real 0 ∨ a = real 1 then real 1
  else match a, b with
    | real x, real y =>
        if x < 0 ∧ ∀ n : ℤ, y ≠ n then undefined
        else if x = 0 ∧ y < 0 then infinite false
        else real (x ^ y)
    | real x, infinite n =>
        if |x| = 1 then real 1 else if |x| < 1 ↔ n = true then infinite false else real 0
    | infinite n, real y =>
        if y < 0 then real 0
        else infinite (n && decide (∃ k : ℤ, y = 2 * k + 1))
    | infinite _, infinite n => if n then real 0 else infinite false
    | _, _ => undefined

def sqrt : Exact → Exact
  | real x => if x < 0 then undefined else real √x
  | infinite false => infinite false
  | _ => undefined

def sin : Exact → Exact
  | real x => real (Real.sin x)
  | _ => undefined

def cos : Exact → Exact
  | real x => real (Real.cos x)
  | _ => undefined

/-- A word at most, if there is no largest natural number. -/
def floorNat : Exact → Nat
  | real x => ⌊x⌋₊
  | infinite n => if n then 0 else UInt64.size - 1
  | undefined => 0

def roundNat : Exact → Nat
  | real x => ⌊x + 1 / 2⌋₊
  | infinite n => if n then 0 else UInt64.size - 1
  | undefined => 0

end Exact

instance : Scalar Exact where
  add := Exact.add
  sub a b := a.add b.neg
  mul := Exact.mul
  div := Exact.div
  neg := Exact.neg
  lt := Exact.Less
  le := Exact.LessEq
  decideLT _ _ := Classical.propDecidable _
  decideLE _ _ := Classical.propDecidable _
  ofNat n := Exact.real n
  infinity := Exact.infinite false
  pi := Exact.real Real.pi
  floorNat := Exact.floorNat
  roundNat := Exact.roundNat
  sqrt := Exact.sqrt
  sin := Exact.sin
  cos := Exact.cos
  pow := Exact.pow

namespace Exact

variable {x y z : ℝ}

@[simp] theorem real_add_real : real x + real y = real (x + y) := rfl

@[simp] theorem real_sub_real : real x - real y = real (x - y) := by
  show real (x + -y) = real (x - y)
  rw [sub_eq_add_neg]

@[simp] theorem real_mul_real : real x * real y = real (x * y) := rfl

@[simp] theorem neg_real : -real x = real (-x) := rfl

@[simp] theorem real_le_real : real x ≤ real y ↔ x ≤ y := Iff.rfl

@[simp] theorem real_lt_real : real x < real y ↔ x < y := Iff.rfl

theorem real_div_real (h : y ≠ 0) : real x / real y = real (x / y) :=
  if_neg h

@[simp] theorem zero_eq_real : (0 : Exact) = real 0 :=
  congrArg real Nat.cast_zero

@[simp] theorem one_eq_real : (1 : Exact) = real 1 :=
  congrArg real Nat.cast_one

@[simp] theorem ofNat_eq_real (n : Nat) [n.AtLeastTwo] :
    (OfNat.ofNat n : Exact) = real (OfNat.ofNat n) := rfl

@[simp] theorem real_le_infinity : real x ≤ Scalar.infinity := rfl

@[simp] theorem real_lt_infinity : real x < Scalar.infinity := rfl

@[simp] theorem not_infinity_le_real : ¬(Scalar.infinity : Exact) ≤ real x :=
  Bool.noConfusion

theorem real_le_of_lt {a : Exact} (h : real x < a) : real x ≤ a := by
  match a, h with
  | real y, h => exact le_of_lt (real_lt_real.1 h)
  | infinite n, h => exact h

theorem nonneg_of_pos {a : Exact} (h : 0 < a) : 0 ≤ a := by
  rw [zero_eq_real] at h ⊢
  exact real_le_of_lt h

theorem not_le_of_lt {a b : Exact} (h : a < b) : ¬b ≤ a := by
  match a, b, h with
  | real x, real y, h => exact not_le_of_gt (real_lt_real.1 h)
  | real _, infinite false, _ => exact Bool.noConfusion
  | infinite true, real _, _ => exact Bool.noConfusion
  | infinite true, infinite false, _ => exact fun h => h.elim Bool.noConfusion Bool.noConfusion

theorem real_le_trans {a : Exact} (h : x ≤ y) (hy : real y ≤ a) : real x ≤ a := by
  match a, hy with
  | real z, hy => exact h.trans (real_le_real.1 hy)
  | infinite n, hy => exact hy

/-- What is not below 0 is either real or infinite. -/
theorem eq_real_or_eq_infinity {a : Exact} (h : 0 ≤ a) :
    (∃ z, a = real z ∧ 0 ≤ z) ∨ a = Scalar.infinity := by
  rw [zero_eq_real] at h
  match a, h with
  | real z, h => exact .inl ⟨z, rfl, h⟩
  | infinite false, _ => exact .inr rfl
  | infinite true, h => cases h

theorem isFinite_iff {a : Exact} : Scalar.IsFinite a ↔ ∃ z, a = real z := by
  constructor
  · intro h
    match a, h with
    | real z, _ => exact ⟨z, rfl⟩
    | infinite false, h => cases h.2.1
    | infinite true, h => cases h.1.2
  · rintro ⟨z, rfl⟩
    exact ⟨rfl, rfl⟩

@[simp] theorem max_real : Scalar.max (real x) (real y) = real (max x y) := by
  simp only [Scalar.max, real_le_real, le_refl, if_true]
  by_cases h : x ≤ y
  · rw [if_pos h, max_eq_right h]
  · rw [if_neg h, max_eq_left (le_of_not_ge h)]

@[simp] theorem min_real : Scalar.min (real x) (real y) = real (min x y) := by
  simp only [Scalar.min, real_le_real, le_refl, if_true]
  by_cases h : y ≤ x
  · rw [if_pos h, min_eq_right h]
  · rw [if_neg h, min_eq_left (le_of_not_ge h)]

@[simp] theorem min_real_infinity : Scalar.min (real x) Scalar.infinity = real x := by
  unfold Scalar.min
  rw [if_neg not_infinity_le_real, if_pos (real_le_real.2 le_rfl)]

@[simp] theorem abs_real : Scalar.abs (real x) = real |x| := by
  simp only [Scalar.abs, zero_eq_real, real_lt_real, neg_real]
  by_cases h : x < 0
  · rw [if_pos h, abs_of_neg h]
  · rw [if_neg h, abs_of_nonneg (le_of_not_gt h)]

@[simp] theorem clamp_real : Scalar.clamp (real x) (real y) (real z) =
    real (if x < y then y else if z < x then z else x) := by
  simp only [Scalar.clamp, real_lt_real]
  by_cases below : x < y
  · rw [if_pos below, if_pos below]
  · by_cases above : z < x
    · rw [if_neg below, if_neg below, if_pos above, if_pos above]
    · rw [if_neg below, if_neg below, if_neg above, if_neg above]

@[simp] theorem isFinite_real (x : ℝ) : Scalar.IsFinite (real x) :=
  isFinite_iff.2 ⟨x, rfl⟩

end Exact

namespace Scalar.IsFinite

open Exact (real)

variable {a b : Exact}

theorem add (ha : IsFinite a) (hb : IsFinite b) : IsFinite (a + b) := by
  obtain ⟨x, rfl⟩ := Exact.isFinite_iff.1 ha
  obtain ⟨y, rfl⟩ := Exact.isFinite_iff.1 hb
  exact Exact.isFinite_real (x + y)

theorem sub (ha : IsFinite a) (hb : IsFinite b) : IsFinite (a - b) := by
  obtain ⟨x, rfl⟩ := Exact.isFinite_iff.1 ha
  obtain ⟨y, rfl⟩ := Exact.isFinite_iff.1 hb
  simp

theorem mul (ha : IsFinite a) (hb : IsFinite b) : IsFinite (a * b) := by
  obtain ⟨x, rfl⟩ := Exact.isFinite_iff.1 ha
  obtain ⟨y, rfl⟩ := Exact.isFinite_iff.1 hb
  exact Exact.isFinite_real (x * y)

theorem max (ha : IsFinite a) (hb : IsFinite b) : IsFinite (Scalar.max a b) := by
  obtain ⟨x, rfl⟩ := Exact.isFinite_iff.1 ha
  obtain ⟨y, rfl⟩ := Exact.isFinite_iff.1 hb
  simp

theorem lerp {t : Exact} (ha : IsFinite a) (hb : IsFinite b) (ht : IsFinite t) :
    IsFinite (Scalar.lerp a b t) := by
  have one : IsFinite (1 : Exact) := by simp
  exact (ha.mul (one.sub ht)).add (hb.mul ht)

end Scalar.IsFinite

end

end ParticlePatterns
