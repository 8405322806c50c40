import ParticlePatterns.Proofs.Behavior.Rotation

/-!
# Turned sprites

The norm of a product of quaternions is the product of their norms, and every turn by angles has
norm 1. So a sprite that is turned again and again stays a turn, and what its orientation is
divided by is always 1. A vector of its frame is as long when it is seen from outside.
-/

set_option autoImplicit false

open scoped Quaternion

namespace ParticlePatterns

open Exact (real)

namespace Quaternion

def norm {α : Type} [Scalar α] (q : Quaternion α) : α :=
  Scalar.sqrt q.normSquared

variable {p q : Quaternion Exact}

theorem IsTurn.norm (h : q.IsTurn) : q.norm = 1 := by
  rw [Quaternion.norm, h.2, Exact.one_eq_real, Exact.sqrt_real zero_le_one, Real.sqrt_one]

theorem IsTurn.mul (hp : p.IsTurn) (hq : q.IsTurn) : (p.mul q).IsTurn := by
  obtain ⟨g, hg, rfl⟩ := hp.exists_hamilton
  obtain ⟨h, hh, rfl⟩ := hq.exists_hamilton
  rw [ofHamilton_mul]
  exact isTurn_ofHamilton (by rw [map_mul, hg, hh, one_mul])

theorem IsTurn.normalize (h : q.IsTurn) : q.normalize = q := by
  obtain ⟨g, unit, rfl⟩ := h.exists_hamilton
  exact normalize_ofHamilton unit

theorem isTurn_ofDegrees (a b c : ℝ) :
    (ofDegrees ⟨real a, real b, real c⟩ : Quaternion Exact).IsTurn :=
  ofDegrees_real a b c ▸ isTurn_ofHamilton (normSq_eulerTurn a b c)

def imaginary (x y z : ℝ) : ℍ[ℝ] where
  re := 0
  imI := x
  imJ := y
  imK := z

@[simp] theorem re_imaginary (x y z : ℝ) : (imaginary x y z).re = 0 := rfl

@[simp] theorem imI_imaginary (x y z : ℝ) : (imaginary x y z).imI = x := rfl

@[simp] theorem imJ_imaginary (x y z : ℝ) : (imaginary x y z).imJ = y := rfl

@[simp] theorem imK_imaginary (x y z : ℝ) : (imaginary x y z).imK = z := rfl

/-- A vector is turned between the quaternion and its conjugate, and is a vector again. -/
theorem rotate_ofHamilton (h : ℍ[ℝ]) (x y z : ℝ) :
    ∃ X Y Z : ℝ, h * imaginary x y z * star h = imaginary X Y Z ∧
      (ofHamilton h).rotate ⟨real x, real y, real z⟩ = ⟨real X, real Y, real Z⟩ := by
  let u := h * imaginary x y z * star h
  refine ⟨u.imI, u.imJ, u.imK, ?_, ?_⟩
  · ext <;> simp [u]
    ring
  · simp only [rotate, ofHamilton, Vec3.scale, Vec3.add, Vec3.dot, Vec3.cross, u,
      Exact.real_mul_real, Exact.real_add_real, Exact.real_sub_real, Exact.ofNat_eq_real,
      Quaternion.re_mul, Quaternion.imI_mul, Quaternion.imJ_mul, Quaternion.imK_mul,
      Quaternion.re_star, Quaternion.imI_star, Quaternion.imJ_star, Quaternion.imK_star,
      re_imaginary, imI_imaginary, imJ_imaginary, imK_imaginary, Vec3.mk.injEq, Exact.real.injEq]
    refine ⟨?_, ?_, ?_⟩ <;> ring

/-- A turn keeps the length of every real vector. -/
theorem IsTurn.exists_rotate (h : q.IsTurn) (x y z : ℝ) : ∃ X Y Z : ℝ,
    q.rotate ⟨real x, real y, real z⟩ = ⟨real X, real Y, real Z⟩ ∧
      X * X + Y * Y + Z * Z = x * x + y * y + z * z := by
  obtain ⟨g, unit, rfl⟩ := h.exists_hamilton
  obtain ⟨X, Y, Z, turned, same⟩ := rotate_ofHamilton g x y z
  refine ⟨X, Y, Z, same, ?_⟩
  have norms : Quaternion.normSq (imaginary X Y Z) = Quaternion.normSq (imaginary x y z) := by
    rw [← turned, map_mul, map_mul, Quaternion.normSq_star, unit, one_mul, mul_one]
  simp only [Quaternion.normSq_def', re_imaginary, imI_imaginary, imJ_imaginary,
    imK_imaginary] at norms
  linarith

end Quaternion

theorem Vec3.length_real (x y z : ℝ) :
    (⟨real x, real y, real z⟩ : Vec3 Exact).length = real √(x * x + y * y + z * z) := by
  have nonneg : 0 ≤ x * x + y * y + z * z :=
    add_nonneg (add_nonneg (mul_self_nonneg x) (mul_self_nonneg y)) (mul_self_nonneg z)
  exact Exact.sqrt_real nonneg

namespace Sprite

variable {s : Sprite Exact}

theorem rotation_rotate (h : s.rotation.IsTurn) (a b c : ℝ) :
    (s.rotate ⟨real a, real b, real c⟩).rotation =
      s.rotation.mul (.ofDegrees ⟨real a, real b, real c⟩) :=
  (h.mul (Quaternion.isTurn_ofDegrees a b c)).normalize

theorem isTurn_rotate (h : s.rotation.IsTurn) (a b c : ℝ) :
    (s.rotate ⟨real a, real b, real c⟩).rotation.IsTurn :=
  rotation_rotate h a b c ▸ h.mul (Quaternion.isTurn_ofDegrees a b c)

/-- A real vector moves the sprite by a real vector of the same length. -/
theorem exists_translate (h : s.rotation.IsTurn) (x y z : ℝ) : ∃ X Y Z : ℝ,
    (s.translate ⟨real x, real y, real z⟩).position =
      s.position.add ⟨real X, real Y, real Z⟩ ∧
    (⟨real X, real Y, real Z⟩ : Vec3 Exact).length =
      (⟨real x, real y, real z⟩ : Vec3 Exact).length := by
  obtain ⟨X, Y, Z, turned, same⟩ := h.exists_rotate x y z
  refine ⟨X, Y, Z, ?_, ?_⟩
  · rw [translate, turned]
  · rw [Vec3.length_real, Vec3.length_real, same]

end Sprite

/-- Only rotations change where a sprite faces. -/
theorem Effect.rotation_apply {α : Type} [Scalar α] {e : Effect α}
    (other : ∀ degrees, e ≠ .rotate degrees) (t : Timing α) (first : Bool) (w : Window α)
    (s : Sprite α) : (e.apply t first w s).2.rotation = s.rotation := by
  match e with
  | .pause => rfl
  | .modify p .set operand initial => exact Sprite.rotation_set _ _ _
  | .modify p .add operand initial => exact Sprite.rotation_set _ _ _
  | .modify p .multiply operand initial => exact Sprite.rotation_set _ _ _
  | .switch action fired =>
    rw [apply]
    split
    · cases action <;> rfl
    · rfl
  | .translate offset => rfl
  | .rotate degrees => exact absurd rfl (other degrees)

end ParticlePatterns
