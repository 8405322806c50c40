import Mathlib
import ParticlePatterns.Geometry.Quaternion
import ParticlePatterns.Proofs.Number.Exact

/-!
# Exact orientations

Quaternions over exact numbers multiply as Hamilton's do. A turn by three angles is the product
of the turns about the three axes. Turns about one and the same axis add up and those about two
axes do not: two turns by the same small angles come to one by twice the angles only if all
angles but one are zero.
-/

set_option autoImplicit false

open scoped Quaternion

namespace ParticlePatterns

open Exact (real)

theorem Exact.sqrt_real {x : ℝ} (h : 0 ≤ x) : Scalar.sqrt (real x) = real √x :=
  if_neg (not_lt_of_ge h)

namespace Quaternion

def ofHamilton (q : ℍ[ℝ]) : Quaternion Exact :=
  ⟨real q.imI, real q.imJ, real q.imK, real q.re⟩

theorem identity_eq_ofHamilton : (identity : Quaternion Exact) = ofHamilton 1 := by
  simp [identity, ofHamilton]

theorem ofHamilton_mul (p q : ℍ[ℝ]) : (ofHamilton p).mul (ofHamilton q) = ofHamilton (p * q) := by
  simp only [mul, ofHamilton, Exact.real_mul_real, Exact.real_add_real, Exact.real_sub_real,
    Quaternion.re_mul, Quaternion.imI_mul, Quaternion.imJ_mul, Quaternion.imK_mul]

theorem normSquared_ofHamilton (q : ℍ[ℝ]) :
    (ofHamilton q).normSquared = real (Quaternion.normSq q) := by
  simp only [normSquared, ofHamilton, Exact.real_mul_real, Exact.real_add_real,
    Quaternion.normSq_def', Exact.real.injEq]
  ring

theorem normalize_ofHamilton {q : ℍ[ℝ]} (h : Quaternion.normSq q = 1) :
    (ofHamilton q).normalize = ofHamilton q := by
  rw [normalize, normSquared_ofHamilton, h, Exact.sqrt_real zero_le_one, Real.sqrt_one]
  simp [scale, ofHamilton, Exact.real_div_real]

end Quaternion

inductive Axis
  | x
  | y
  | z
deriving DecidableEq

namespace Axis

noncomputable def turn (u : Axis) (θ : ℝ) : ℍ[ℝ] where
  re := Real.cos θ
  imI := if u = x then Real.sin θ else 0
  imJ := if u = y then Real.sin θ else 0
  imK := if u = z then Real.sin θ else 0

@[simp] theorem re_turn (u : Axis) (θ : ℝ) : (u.turn θ).re = Real.cos θ := rfl

@[simp] theorem imI_turn (u : Axis) (θ : ℝ) :
    (u.turn θ).imI = if u = x then Real.sin θ else 0 := rfl

@[simp] theorem imJ_turn (u : Axis) (θ : ℝ) :
    (u.turn θ).imJ = if u = y then Real.sin θ else 0 := rfl

@[simp] theorem imK_turn (u : Axis) (θ : ℝ) :
    (u.turn θ).imK = if u = z then Real.sin θ else 0 := rfl

theorem turn_mul_turn (u : Axis) (θ φ : ℝ) : u.turn θ * u.turn φ = u.turn (θ + φ) := by
  cases u <;> ext <;> simp [Real.cos_add, Real.sin_add] <;> ring

@[simp] theorem turn_zero (u : Axis) : u.turn 0 = 1 := by
  ext <;> simp

theorem normSq_turn (u : Axis) (θ : ℝ) : Quaternion.normSq (u.turn θ) = 1 := by
  cases u <;> simp [Quaternion.normSq_def']

end Axis

noncomputable def halfAngle (degrees : ℝ) : ℝ := degrees * (Real.pi / 360)

noncomputable def eulerTurn (a b c : ℝ) : ℍ[ℝ] :=
  Axis.x.turn (halfAngle a) * Axis.y.turn (halfAngle b) * Axis.z.turn (halfAngle c)

theorem halfAngle_add (x y : ℝ) : halfAngle x + halfAngle y = halfAngle (x + y) := by
  unfold halfAngle
  ring

@[simp] theorem halfAngle_zero : halfAngle 0 = 0 := by
  simp [halfAngle]

theorem halfAngle_mul (x k : ℝ) : halfAngle (x * k) = halfAngle x * k := by
  unfold halfAngle
  ring

theorem halfAngle_eq_zero {x : ℝ} : halfAngle x = 0 ↔ x = 0 := by
  have positive : Real.pi / 360 ≠ 0 := by positivity
  rw [halfAngle, mul_eq_zero, or_iff_left positive]

theorem Scalar.radians_real (x : ℝ) : Scalar.radians (real x) = real (x * (Real.pi / 180)) := by
  have degree : (Scalar.pi / 180 : Exact) = real (Real.pi / 180) :=
    Exact.real_div_real (by norm_num)
  rw [Scalar.radians, degree, Exact.real_mul_real]

theorem Quaternion.ofDegrees_real (a b c : ℝ) :
    ofDegrees ⟨real a, real b, real c⟩ = ofHamilton (eulerTurn a b c) := by
  have half : (1 / 2 : Exact) = real (1 / 2) := by simp [Exact.real_div_real]
  have halved (x : ℝ) : x * (Real.pi / 180) * (1 / 2) = halfAngle x := by
    unfold halfAngle
    ring
  have angle (x : ℝ) : Scalar.radians (real x) * (1 / 2) = real (halfAngle x) := by
    rw [Scalar.radians_real, half, Exact.real_mul_real, halved]
  have negative (x : ℝ) : -Scalar.radians (real x) * (1 / 2) = real (-halfAngle x) := by
    rw [Scalar.radians_real, half, Exact.neg_real, Exact.real_mul_real, neg_mul, halved]
  have sine (x : ℝ) : Scalar.sin (real x) = real (Real.sin x) := rfl
  have cosine (x : ℝ) : Scalar.cos (real x) = real (Real.cos x) := rfl
  have minus : (-1 : Exact) = real (-1) := by simp
  simp only [ofDegrees, ofEuler, angle, negative, sine, cosine, minus, Real.sin_neg,
    Real.cos_neg, Exact.real_mul_real, Exact.real_add_real, Exact.real_sub_real]
  simp only [ofHamilton, eulerTurn, Quaternion.re_mul, Quaternion.imI_mul, Quaternion.imJ_mul,
    Quaternion.imK_mul, Axis.re_turn, Axis.imI_turn, Axis.imJ_turn, Axis.imK_turn, reduceCtorEq,
    if_true, if_false, mk.injEq, Exact.real.injEq]
  refine ⟨?_, ?_, ?_, ?_⟩ <;> ring

theorem normSq_eulerTurn (a b c : ℝ) : Quaternion.normSq (eulerTurn a b c) = 1 := by
  simp only [eulerTurn, map_mul, Axis.normSq_turn, mul_one]

theorem normSq_mul_eulerTurn {h : ℍ[ℝ]} (unit : Quaternion.normSq h = 1) (a b c : ℝ) :
    Quaternion.normSq (h * eulerTurn a b c) = 1 := by
  rw [map_mul, unit, normSq_eulerTurn, one_mul]

def AboutOneAxis (a b c : ℝ) : Prop :=
  (b = 0 ∧ c = 0) ∨ (a = 0 ∧ c = 0) ∨ (a = 0 ∧ b = 0)

variable {a b c : ℝ}

theorem eulerTurn_zero : eulerTurn 0 0 0 = 1 := by
  simp [eulerTurn]

theorem AboutOneAxis.eulerTurn_mul (h : AboutOneAxis a b c) (k l : ℝ) :
    eulerTurn (a * k) (b * k) (c * k) * eulerTurn (a * l) (b * l) (c * l) =
      eulerTurn (a * (k + l)) (b * (k + l)) (c * (k + l)) := by
  obtain ⟨rfl, rfl⟩ | ⟨rfl, rfl⟩ | ⟨rfl, rfl⟩ := h <;>
    simp [eulerTurn, Axis.turn_mul_turn, halfAngle_add, mul_add]

/-- Turns by what comes between two shares. -/
theorem eulerTurn_mul_sub {k l : ℝ} (hkl : k ≤ l)
    (kind : AboutOneAxis a b c ∨ (k = 0 ∨ k = 1) ∧ (l = 0 ∨ l = 1)) :
    eulerTurn (a * k) (b * k) (c * k) * eulerTurn (a * (l - k)) (b * (l - k)) (c * (l - k)) =
      eulerTurn (a * l) (b * l) (c * l) := by
  obtain axis | ⟨rfl | rfl, rfl | rfl⟩ := kind
  · rw [axis.eulerTurn_mul, add_sub_cancel]
  · simp [eulerTurn_zero]
  · simp [eulerTurn_zero]
  · exact absurd hkl (not_le_of_gt one_pos)
  · simp [eulerTurn_zero]

/-- By an angle so small that the sines of several such do not make up for the cosines. -/
def SmallAngle (θ : ℝ) : Prop := |θ| ≤ 1 / 4

namespace SmallAngle

variable {θ : ℝ}

theorem abs_sin_le (h : SmallAngle θ) : |Real.sin θ| ≤ 1 / 4 :=
  Real.abs_sin_le_abs.trans h

theorem le_cos (h : SmallAngle θ) : 3 / 4 ≤ Real.cos θ := by
  have square : θ ^ 2 ≤ (1 / 4) ^ 2 := sq_le_sq' (abs_le.1 h).1 (abs_le.1 h).2
  linarith [Real.one_sub_sq_div_two_le_cos (x := θ)]

theorem eq_zero (h : SmallAngle θ) (zero : Real.sin θ = 0) : θ = 0 := by
  have ⟨below, above⟩ := abs_le.1 h
  exact (Real.sin_eq_zero_iff_of_lt_of_lt (by linarith [Real.pi_gt_three])
    (by linarith [Real.pi_gt_three])).1 zero

end SmallAngle

/-- What it takes in the components about x and y that the turns about y and z may come first as
well as those about x and y. -/
theorem components_of_commute {θ φ χ : ℝ}
    (h : Axis.y.turn φ * Axis.z.turn χ * (Axis.x.turn θ * Axis.y.turn φ) =
      Axis.x.turn θ * Axis.y.turn φ * (Axis.y.turn φ * Axis.z.turn χ)) :
    Real.sin φ *
        (Real.sin φ * Real.sin θ * Real.cos χ - Real.cos φ * Real.cos θ * Real.sin χ) = 0 ∧
      Real.sin θ * Real.sin χ * (Real.cos φ * Real.cos φ - Real.sin φ * Real.sin φ) = 0 := by
  have i := congrArg QuaternionAlgebra.imI h
  have j := congrArg QuaternionAlgebra.imJ h
  simp only [Quaternion.re_mul, Quaternion.imI_mul, Quaternion.imJ_mul, Quaternion.imK_mul,
    Axis.re_turn, Axis.imI_turn, Axis.imJ_turn, Axis.imK_turn, reduceCtorEq, if_true,
    if_false, mul_zero, zero_mul, add_zero, zero_add, sub_zero, sub_self] at i j
  constructor
  · linear_combination i / 2
  · linear_combination j / 2

/-- If it does not matter which turns come first, then there is only one axis. -/
theorem aboutOneAxis_of_commute {θ φ χ : ℝ} (hθ : SmallAngle θ) (hφ : SmallAngle φ)
    (hχ : SmallAngle χ)
    (h : Axis.y.turn φ * Axis.z.turn χ * (Axis.x.turn θ * Axis.y.turn φ) =
      Axis.x.turn θ * Axis.y.turn φ * (Axis.y.turn φ * Axis.z.turn χ)) : AboutOneAxis θ φ χ := by
  obtain ⟨inner, outer⟩ := components_of_commute h
  have cosθ := hθ.le_cos
  have cosφ := hφ.le_cos
  have cosχ := hχ.le_cos
  have wide : Real.cos φ * Real.cos φ - Real.sin φ * Real.sin φ ≠ 0 := by
    have narrow := abs_le.1 hφ.abs_sin_le
    nlinarith
  obtain zero | zero := mul_eq_zero.1 ((mul_eq_zero.1 outer).resolve_right wide)
  · -- nothing about x, so nothing about y or nothing about z
    have product : Real.sin φ * Real.sin χ * (Real.cos φ * Real.cos θ) = 0 := by
      linear_combination Real.sin φ * Real.sin φ * Real.cos χ * zero - inner
    obtain other | other := mul_eq_zero.1 ((mul_eq_zero.1 product).resolve_right (by positivity))
    · exact .inr (.inr ⟨hθ.eq_zero zero, hφ.eq_zero other⟩)
    · exact .inr (.inl ⟨hθ.eq_zero zero, hχ.eq_zero other⟩)
  · -- nothing about z, so nothing about y or nothing about x
    have product : Real.sin φ * Real.sin φ * Real.sin θ * Real.cos χ = 0 := by
      linear_combination inner + Real.sin φ * Real.cos φ * Real.cos θ * zero
    have both := (mul_eq_zero.1 product).resolve_right (by positivity)
    obtain other | other := mul_eq_zero.1 both
    · exact .inl ⟨hφ.eq_zero (mul_self_eq_zero.1 other), hχ.eq_zero zero⟩
    · exact .inr (.inl ⟨hθ.eq_zero other, hχ.eq_zero zero⟩)

theorem mul_mul_mul_le {p q r s P Q R S : ℝ} (hp : |p| ≤ P) (hq : |q| ≤ Q) (hr : |r| ≤ R)
    (hs : |s| ≤ S) : p * q * (r * s) ≤ P * Q * (R * S) := by
  have hP := (abs_nonneg p).trans hp
  have hQ := (abs_nonneg q).trans hq
  have hR := (abs_nonneg r).trans hr
  refine (le_abs_self _).trans ?_
  rw [abs_mul, abs_mul, abs_mul]
  gcongr

/-- By small angles the two orders are on the same side. -/
theorem not_opposite {θ φ χ : ℝ} (hθ : SmallAngle θ) (hφ : SmallAngle φ) (hχ : SmallAngle χ) :
    Axis.y.turn φ * Axis.z.turn χ * (Axis.x.turn θ * Axis.y.turn φ) ≠
      -(Axis.x.turn θ * Axis.y.turn φ * (Axis.y.turn φ * Axis.z.turn χ)) := by
  intro opposite
  have r := congrArg QuaternionAlgebra.re opposite
  simp only [Quaternion.re_neg, Quaternion.re_mul, Quaternion.imI_mul, Quaternion.imJ_mul,
    Quaternion.imK_mul, Axis.re_turn, Axis.imI_turn, Axis.imJ_turn, Axis.imK_turn, reduceCtorEq,
    if_true, if_false, mul_zero, zero_mul, add_zero, zero_add, sub_zero, sub_self] at r
  have cosθ := hθ.le_cos
  have cosφ := hφ.le_cos
  have cosχ := hχ.le_cos
  -- both real parts are the product of the cosines but for terms with sines in them
  have whole : 3 / 4 * (3 / 4) * (3 / 4 * (3 / 4)) ≤
      Real.cos φ * Real.cos χ * (Real.cos θ * Real.cos φ) := by
    gcongr
  have first := mul_mul_mul_le hφ.abs_sin_le hχ.abs_sin_le hθ.abs_sin_le (Real.abs_cos_le_one φ)
  have second := mul_mul_mul_le hφ.abs_sin_le (Real.abs_cos_le_one χ) (Real.abs_cos_le_one θ)
    hφ.abs_sin_le
  have third := mul_mul_mul_le (Real.abs_cos_le_one φ) hχ.abs_sin_le hθ.abs_sin_le hφ.abs_sin_le
  linarith

/-- Two turns by the same small angles are one by twice the angles only if there is one axis. -/
theorem aboutOneAxis_of_eulerTurn_mul (ha : SmallAngle (halfAngle a))
    (hb : SmallAngle (halfAngle b)) (hc : SmallAngle (halfAngle c))
    (h : eulerTurn a b c * eulerTurn a b c = eulerTurn (a + a) (b + b) (c + c) ∨
      eulerTurn a b c * eulerTurn a b c = -eulerTurn (a + a) (b + b) (c + c)) :
    AboutOneAxis a b c := by
  have nonzero (u : Axis) (θ : ℝ) : u.turn θ ≠ 0 := by
    rw [← Quaternion.normSq_ne_zero, Axis.normSq_turn]
    exact one_ne_zero
  -- the first turn about x and the last one about z are the same on both sides
  have cancel {p q : ℍ[ℝ]} (same : Axis.x.turn (halfAngle a) * p * Axis.z.turn (halfAngle c) =
      Axis.x.turn (halfAngle a) * q * Axis.z.turn (halfAngle c)) : p = q :=
    mul_left_cancel₀ (nonzero .x _) (mul_right_cancel₀ (nonzero .z _) same)
  simp only [eulerTurn, ← halfAngle_add, ← Axis.turn_mul_turn] at h
  have inside : AboutOneAxis (halfAngle a) (halfAngle b) (halfAngle c) := by
    obtain same | opposite := h
    · refine aboutOneAxis_of_commute ha hb hc (cancel ?_)
      simpa only [mul_assoc] using same
    · refine absurd (cancel ?_) (not_opposite ha hb hc)
      simpa only [mul_assoc, mul_neg, neg_mul] using opposite
  simpa only [AboutOneAxis, halfAngle_eq_zero] using inside

/-- Small enough parts of all angles tell that there is one axis. -/
theorem aboutOneAxis_of_halves
    (h : ∀ s : ℝ, 0 < s → s + s ≤ 1 →
      eulerTurn (a * s) (b * s) (c * s) * eulerTurn (a * s) (b * s) (c * s) =
          eulerTurn (a * (s + s)) (b * (s + s)) (c * (s + s)) ∨
        eulerTurn (a * s) (b * s) (c * s) * eulerTurn (a * s) (b * s) (c * s) =
          -eulerTurn (a * (s + s)) (b * (s + s)) (c * (s + s))) : AboutOneAxis a b c := by
  let bound := 1 + |halfAngle a| + |halfAngle b| + |halfAngle c|
  have nonneg := abs_nonneg (halfAngle a)
  have nonneg' := abs_nonneg (halfAngle b)
  have nonneg'' := abs_nonneg (halfAngle c)
  have above : 1 ≤ bound := by linarith
  let s := 1 / (4 * bound)
  have positive : 0 < s := by positivity
  have part : s ≤ 1 / 4 := one_div_le_one_div_of_le (by norm_num) (by linarith)
  have small {x : ℝ} (hx : |halfAngle x| ≤ bound) : SmallAngle (halfAngle (x * s)) := by
    rw [SmallAngle, halfAngle_mul, abs_mul, abs_of_pos positive]
    calc |halfAngle x| * s ≤ bound * s := by gcongr
      _ = 1 / 4 := by
        simp only [s]
        field_simp
  have whole := h s positive (by linarith)
  simp only [mul_add] at whole
  have axis := aboutOneAxis_of_eulerTurn_mul (small (by linarith)) (small (by linarith))
    (small (by linarith)) whole
  simpa only [AboutOneAxis, mul_eq_zero, positive.ne', or_false] using axis

end ParticlePatterns
