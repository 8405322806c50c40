import ParticlePatterns.Proofs.Behavior.Component

/-!
# Portions of an effect

The share of an effect that has come grows with time and stays whole once the lifespan is
over. What an effect does in two windows that meet is what it does in both of them at once.
-/

set_option autoImplicit false

namespace ParticlePatterns

open Exact (real)

namespace Exact

/-- Real amounts can be added up first, whatever they are added to. -/
theorem add_real_add_real (a : Exact) (x y : ℝ) : a + real x + real y = a + real (x + y) := by
  match a with
  | .real z =>
    show real (z + x + y) = real (z + (x + y))
    rw [add_assoc]
  | .infinite n => rfl
  | .undefined => rfl

end Exact

namespace Easing

noncomputable def realRatio (d x : ℝ) : ℝ :=
  if d ≤ 0 then if 0 < x then 1 else 0 else max 0 (min 1 (x / d))

noncomputable def realCurve (e : Easing) (r : ℝ) : ℝ :=
  match e with
  | linear => r
  | easeIn => r * r
  | easeOut => 1 - (1 - r) * (1 - r)
  | easeInOut => if r + r < 1 then (r + r) * r else 1 - (1 - r + (1 - r)) * (1 - r)

noncomputable def realShare (e : Easing) (d x : ℝ) : ℝ :=
  e.realCurve (realRatio d x)

variable {d x y : ℝ}

theorem ratio_real : ratio (real x) (real d) = real (realRatio d x) := by
  unfold ratio realRatio
  by_cases hd : d ≤ 0
  · by_cases hx : 0 < x <;> simp [hd, hx]
  · have positive := lt_of_not_ge hd
    simp only [Exact.zero_eq_real, Exact.one_eq_real, Exact.real_le_real, if_neg hd,
      Exact.real_div_real positive.ne', Exact.clamp_real]
    congr 1
    by_cases below : x / d < 0
    · rw [if_pos below, max_eq_left (min_le_of_right_le below.le)]
    · by_cases above : 1 < x / d
      · rw [if_neg below, if_pos above, min_eq_left above.le, max_eq_right zero_le_one]
      · rw [if_neg below, if_neg above, min_eq_right (le_of_not_gt above),
          max_eq_right (le_of_not_gt below)]

theorem curve_real (e : Easing) : e.curve (real x) = real (e.realCurve x) := by
  cases e with
  | linear => rfl
  | easeIn => rfl
  | easeOut => simp [curve, realCurve]
  | easeInOut =>
    have half : (1 / 2 : Exact) = real (1 / 2) := by simp [Exact.real_div_real]
    have below : real x < 1 / 2 ↔ x + x < 1 := by
      rw [half, Exact.real_lt_real, lt_div_iff₀ two_pos, mul_two]
    simp only [curve, realCurve, below]
    split
    · simp [two_mul]
    · simp [two_mul]

theorem realRatio_mem (d x : ℝ) : 0 ≤ realRatio d x ∧ realRatio d x ≤ 1 := by
  unfold realRatio
  split
  · split
    · exact ⟨zero_le_one, le_refl 1⟩
    · exact ⟨le_refl 0, zero_le_one⟩
  · exact ⟨le_max_left _ _, max_le zero_le_one (min_le_left _ _)⟩

theorem realRatio_mono (h : x ≤ y) : realRatio d x ≤ realRatio d y := by
  unfold realRatio
  by_cases hd : d ≤ 0
  · rw [if_pos hd, if_pos hd]
    by_cases hx : 0 < x
    · rw [if_pos hx, if_pos (hx.trans_le h)]
    · rw [if_neg hx]
      split
      · exact zero_le_one
      · exact le_refl 0
  · rw [if_neg hd, if_neg hd]
    have positive := lt_of_not_ge hd
    gcongr

theorem realRatio_of_le (h : d ≤ x) (hx : 0 < x) : realRatio d x = 1 := by
  unfold realRatio
  by_cases hd : d ≤ 0
  · rw [if_pos hd, if_pos hx]
  · have positive := lt_of_not_ge hd
    have past : 1 ≤ x / d := by rwa [le_div_iff₀ positive, one_mul]
    rw [if_neg hd, min_eq_left past, max_eq_right zero_le_one]

theorem realRatio_of_nonpos (h : x ≤ 0) : realRatio d x = 0 := by
  unfold realRatio
  by_cases hd : d ≤ 0
  · rw [if_pos hd, if_neg (not_lt_of_ge h)]
  · have before : x / d ≤ 0 := div_nonpos_of_nonpos_of_nonneg h (lt_of_not_ge hd).le
    rw [if_neg hd, max_eq_left ((min_le_right _ _).trans before)]

theorem realCurve_mono (e : Easing) (h0 : 0 ≤ x) (h : x ≤ y) (h1 : y ≤ 1) :
    e.realCurve x ≤ e.realCurve y := by
  cases e with
  | linear => exact h
  | easeIn =>
    simp only [realCurve]
    nlinarith
  | easeOut =>
    simp only [realCurve]
    nlinarith
  | easeInOut =>
    simp only [realCurve]
    by_cases hx : x + x < 1
    · by_cases hy : y + y < 1
      · rw [if_pos hx, if_pos hy]
        nlinarith
      · rw [if_pos hx, if_neg hy]
        nlinarith
    · have hy : ¬y + y < 1 := fun hy => hx (by linarith)
      rw [if_neg hx, if_neg hy]
      nlinarith

theorem realShare_mono (e : Easing) (d : ℝ) (h : x ≤ y) : e.realShare d x ≤ e.realShare d y :=
  e.realCurve_mono (realRatio_mem d x).1 (realRatio_mono h) (realRatio_mem d y).2

@[simp] theorem realCurve_zero (e : Easing) : e.realCurve 0 = 0 := by
  cases e <;> norm_num [realCurve]

@[simp] theorem realCurve_one (e : Easing) : e.realCurve 1 = 1 := by
  cases e <;> norm_num [realCurve]

theorem realShare_of_nonpos (e : Easing) (d : ℝ) (h : x ≤ 0) : e.realShare d x = 0 := by
  rw [realShare, realRatio_of_nonpos h, realCurve_zero]

theorem realShare_zero (e : Easing) (d : ℝ) : e.realShare d 0 = 0 :=
  e.realShare_of_nonpos d le_rfl

theorem realShare_of_le (e : Easing) (h : d ≤ x) (hx : 0 < x) : e.realShare d x = 1 := by
  rw [realShare, realRatio_of_le h hx, realCurve_one]

theorem realShare_nonneg (e : Easing) (d x : ℝ) : 0 ≤ e.realShare d x := by
  have bounds := realRatio_mem d x
  exact e.realCurve_zero ▸ e.realCurve_mono le_rfl bounds.1 bounds.2

theorem realShare_le_one (e : Easing) (d x : ℝ) : e.realShare d x ≤ 1 := by
  have bounds := realRatio_mem d x
  exact e.realCurve_one ▸ e.realCurve_mono bounds.1 bounds.2 (le_refl 1)

end Easing

theorem Timing.progress_real {t : Timing Exact} {d : ℝ} (hl : t.lifespan = real d) (x : ℝ) :
    t.progress (real x) = real (t.easing.realShare d x) := by
  rw [progress, hl, Easing.progress, Easing.ratio_real, Easing.curve_real]
  rfl

theorem Timing.delta_eq_sub (t : Timing Exact) (w : Window Exact) :
    t.delta w = t.progress w.stop - t.progress w.start := rfl

theorem Timing.delta_real {t : Timing Exact} {d : ℝ} (hl : t.lifespan = real d) (x y : ℝ) :
    t.delta ⟨real x, real y⟩ = real (t.easing.realShare d y - t.easing.realShare d x) := by
  rw [delta_eq_sub, progress_real hl, progress_real hl, Exact.real_sub_real]

def Quaternion.IsReal (q : Quaternion Exact) : Prop :=
  ∃ x y z w, q = ⟨real x, real y, real z, real w⟩

/-- A part of a real offset turns into the same part of a real offset. -/
theorem Quaternion.IsReal.rotate {q : Quaternion Exact} (h : q.IsReal) (x y z : ℝ) :
    ∃ X Y Z : ℝ, ∀ k : ℝ, q.rotate ((⟨real x, real y, real z⟩ : Vec3 Exact).scale (real k)) =
      ⟨real (X * k), real (Y * k), real (Z * k)⟩ := by
  obtain ⟨p, r, s, w, rfl⟩ := h
  let b := w * w - (p * p + r * r + s * s)
  let v := (x * p + y * r + z * s) * 2
  refine ⟨x * b + p * v + (r * z - y * s) * (w * 2), y * b + r * v + (s * x - z * p) * (w * 2),
    z * b + s * v + (p * y - x * r) * (w * 2), fun k => ?_⟩
  simp only [Quaternion.rotate, Vec3.scale, Vec3.add, Vec3.dot, Vec3.cross, Exact.real_mul_real,
    Exact.real_add_real, Exact.real_sub_real, Exact.ofNat_eq_real, Vec3.mk.injEq,
    Exact.real.injEq, b, v]
  refine ⟨?_, ?_, ?_⟩ <;> ring

theorem Sprite.translate_translate {s : Sprite Exact} (hr : s.rotation.IsReal)
    (x y z k l : ℝ) :
    (s.translate ((⟨real x, real y, real z⟩ : Vec3 Exact).scale (real k))).translate
      ((⟨real x, real y, real z⟩ : Vec3 Exact).scale (real l)) =
    s.translate ((⟨real x, real y, real z⟩ : Vec3 Exact).scale (real (k + l))) := by
  obtain ⟨X, Y, Z, turned⟩ := hr.rotate x y z
  simp only [translate, turned, Vec3.add, Exact.add_real_add_real, mul_add]

namespace Effect

variable {A : Set Component} {e : Effect Exact} {t : Timing Exact} {d : ℝ}

/-- Two windows that meet are as good as one. -/
theorem Acts.apply_apply (h : e.Acts A) (hl : t.lifespan = real d) {a b c : ℝ} (hbc : b ≤ c)
    (first : Bool) {s : Sprite Exact} (hr : s.rotation.IsReal) :
    (e.apply t first ⟨real a, real b⟩ s).1.apply t false ⟨real b, real c⟩
      (e.apply t first ⟨real a, real b⟩ s).2 = e.apply t first ⟨real a, real c⟩ s := by
  match e, h with
  | pause, _ => rfl
  | modify p .set operand initial, _ => simp [Effect.apply]
  | modify p .add operand initial, ⟨_, x, hx⟩ =>
    simp only [Effect.apply, Sprite.modify, Modification.apply, Sprite.get_set, Sprite.set_set,
      Timing.delta_real hl, hx, Exact.real_mul_real, Exact.add_real_add_real]
    have sum : x * (t.easing.realShare d b - t.easing.realShare d a) +
        x * (t.easing.realShare d c - t.easing.realShare d b) =
        x * (t.easing.realShare d c - t.easing.realShare d a) := by ring
    rw [sum]
  | switch action fired, _ =>
    have mid := Timing.progress_real hl b
    have last := Timing.progress_real hl c
    have later := t.easing.realShare_mono d hbc
    by_cases fires : fired = false ∧ 1 ≤ t.progress (real b)
    · have still : 1 ≤ t.progress (real c) := by
        have one := fires.2
        rw [mid, Exact.one_eq_real, Exact.real_le_real] at one
        rw [last, Exact.one_eq_real, Exact.real_le_real]
        exact one.trans later
      have fired' : (switch action fired).apply t first ⟨real a, real b⟩ s =
          (switch action true, action.apply s) := if_pos fires
      have past : (switch action true).apply t false ⟨real b, real c⟩ (action.apply s) =
          (switch action true, action.apply s) := rfl
      rw [fired', past]
      exact (if_pos ⟨fires.1, still⟩).symm
    · have unfired : (switch action fired).apply t first ⟨real a, real b⟩ s =
          (switch action fired, s) := if_neg fires
      rw [unfired]
      rfl
  | translate offset, ⟨_, x, y, z, hv⟩ =>
    simp only [Effect.apply, Timing.delta_real hl, hv, Sprite.translate_translate hr]
    have sum : t.easing.realShare d b - t.easing.realShare d a +
        (t.easing.realShare d c - t.easing.realShare d b) =
        t.easing.realShare d c - t.easing.realShare d a := by ring
    rw [sum]

/-- Once the lifespan is over, the end of the window does not matter. -/
theorem apply_of_over (hl : t.lifespan = real d) {w : Exact} {b c : ℝ} (hb : d ≤ b) (hc : d ≤ c)
    (hb0 : 0 < b) (hc0 : 0 < c) (first : Bool) (s : Sprite Exact) :
    e.apply t first ⟨w, real b⟩ s = e.apply t first ⟨w, real c⟩ s := by
  have same : t.progress (real b) = t.progress (real c) := by
    rw [Timing.progress_real hl, Timing.progress_real hl, Easing.realShare_of_le _ hb hb0,
      Easing.realShare_of_le _ hc hc0]
  cases e with
  | pause => rfl
  | modify p how operand initial =>
    cases how <;> simp only [Effect.apply, Timing.delta_eq_sub, same]
  | switch action fired => simp only [Effect.apply, same]
  | translate offset => simp only [Effect.apply, Timing.delta_eq_sub, same]
  | rotate degrees => simp only [Effect.apply, Timing.delta_eq_sub, same]

end Effect

end ParticlePatterns
