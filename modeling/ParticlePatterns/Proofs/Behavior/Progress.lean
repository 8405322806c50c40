import ParticlePatterns.Proofs.Behavior.Clock
import ParticlePatterns.Proofs.Behavior.Portion

/-!
# Progress and completion

Progress is worked out from the share of the lifespan that is over, completion from the end of
the window alone. They agree: progress is whole from the moment at which what goes by its lifespan
is complete, and not before, whatever the easing.
-/

set_option autoImplicit false

namespace ParticlePatterns

open Exact (real)

namespace Easing

variable {e : Easing} {n : Exact} {d r x y : ℝ}

/-- A curve reaches its end no sooner than time does. -/
theorem realCurve_eq_one_iff (h0 : 0 ≤ r) (h1 : r ≤ 1) : e.realCurve r = 1 ↔ r = 1 := by
  refine ⟨fun h => ?_, fun h => h ▸ e.realCurve_one⟩
  cases e with
  | linear => exact h
  | easeIn =>
    obtain whole | below := mul_self_eq_one_iff.1 h
    · exact whole
    · linarith
  | easeOut =>
    have rest : (1 - r) * (1 - r) = 0 := by
      rw [realCurve] at h
      linarith
    linarith [mul_self_eq_zero.1 rest]
  | easeInOut =>
    rw [realCurve] at h
    split at h
    next early =>
      -- Half of the time makes half of the way at most.
      nlinarith
    · have rest : (1 - r) * (1 - r) = 0 := by linarith
      linarith [mul_self_eq_zero.1 rest]

theorem realRatio_eq_one_iff (hx : 0 < x) : realRatio d x = 1 ↔ d ≤ x := by
  refine ⟨fun h => ?_, fun h => realRatio_of_le h hx⟩
  unfold realRatio at h
  by_cases hd : d ≤ 0
  · exact hd.trans hx.le
  · rw [if_neg hd] at h
    have past : 1 ≤ x / d := by
      by_contra early
      have below : max 0 (min 1 (x / d)) < 1 :=
        max_lt one_pos (min_lt_of_right_lt (lt_of_not_ge early))
      exact below.ne h
    rwa [le_div_iff₀ (lt_of_not_ge hd), one_mul] at past

/-- Progress is this share at every time, it grows from nothing, and it is whole once the lifespan
is over and no sooner. -/
structure Spreads (e : Easing) (n : Exact) (share : ℝ → ℝ) : Prop where
  progress : ∀ x, e.progress (real x) n = real (share x)
  nonneg : ∀ x, 0 ≤ share x
  le_one : ∀ x, share x ≤ 1
  mono : Monotone share
  of_nonpos : ∀ x ≤ 0, share x = 0
  whole : ∀ x > 0, share x = 1 ↔ n ≤ real x

theorem spreads_real (e : Easing) (d : ℝ) : e.Spreads (real d) (e.realShare d) where
  progress x := by
    rw [Easing.progress, ratio_real, curve_real, realShare]
  nonneg := e.realShare_nonneg d
  le_one := e.realShare_le_one d
  mono _ _ h := e.realShare_mono d h
  of_nonpos _ h := e.realShare_of_nonpos d h
  whole x hx := by
    have bounds := realRatio_mem d x
    rw [realShare, realCurve_eq_one_iff bounds.1 bounds.2, realRatio_eq_one_iff hx,
      Exact.real_le_real]

/-- Of a lifespan without end nothing is ever over. -/
theorem spreads_infinity (e : Easing) : e.Spreads Scalar.infinity fun _ => 0 where
  progress x := by
    have ratio : ratio (real x) Scalar.infinity = real 0 := by
      have part : real x / (Scalar.infinity : Exact) = real 0 := rfl
      simp [Easing.ratio, part]
    rw [Easing.progress, ratio, curve_real, realCurve_zero]
  nonneg _ := le_rfl
  le_one _ := zero_le_one
  mono _ _ _ := le_rfl
  of_nonpos _ _ := rfl
  whole x _ := iff_of_false zero_ne_one Exact.not_infinity_le_real

theorem exists_spreads (e : Easing) (hn : 0 ≤ n) : ∃ share, e.Spreads n share := by
  obtain ⟨d, rfl, -⟩ | rfl := Exact.eq_real_or_eq_infinity hn
  · exact ⟨_, e.spreads_real d⟩
  · exact ⟨_, e.spreads_infinity⟩

theorem Spreads.delta {share : ℝ → ℝ} (h : e.Spreads n share) (x y : ℝ) :
    e.delta (real x) (real y) n = real (share y - share x) := by
  rw [Easing.delta, h.progress, h.progress, Exact.real_sub_real]

end Easing

/-- What goes by its lifespan is complete at the end of a window if its lifespan is over then. -/
theorem Timing.verdict_nonneg_iff {t : Timing Exact} {start stop : ℝ} (h : 0 ≤ t.lifespan)
    (hw : start ≤ stop) : 0 ≤ t.verdict ⟨real start, real stop⟩ ↔ t.lifespan ≤ real stop := by
  obtain ⟨l, hl, -, past, answer⟩ | ⟨before, answer⟩ := @Timing.verdict_cases t start stop h
  · rw [answer, hl, Exact.zero_eq_real, Exact.real_le_real, Exact.real_le_real]
    exact iff_of_true (sub_nonneg.2 (max_le past hw)) past
  · rw [answer]
    exact iff_of_false (by simp) (Exact.not_le_of_lt before)

/-- Progress goes from 0 to 1 without ever falling, is nothing up to the first moment, and behind it
is whole exactly if the lifespan is over. So a window with any time behind the first moment is
answered as complete exactly if progress is whole at its end. What a window adds to progress is not
negative, and it is what its parts add. -/
theorem progress_agrees_with_completion (e : Easing) {n : Exact} (hn : 0 ≤ n) :
    (∀ t : ℝ, 0 ≤ e.progress (real t) n ∧ e.progress (real t) n ≤ 1) ∧
    (∀ s t : ℝ, s ≤ t → e.progress (real s) n ≤ e.progress (real t) n) ∧
    (∀ t : ℝ, t ≤ 0 → e.progress (real t) n = 0) ∧
    (∀ t : ℝ, 0 < t → (e.progress (real t) n = 1 ↔ n ≤ real t)) ∧
    (∀ (last : Option Exact) (start stop : ℝ), start ≤ stop → 0 < stop →
      let timing : Timing Exact := ⟨e, n, last⟩
      0 ≤ timing.verdict ⟨real start, real stop⟩ ↔ timing.progress (real stop) = 1) ∧
    (∀ a b : ℝ, a ≤ b → 0 ≤ e.delta (real a) (real b) n) ∧
    ∀ a b c : ℝ, e.delta (real a) (real b) n + e.delta (real b) (real c) n =
      e.delta (real a) (real c) n := by
  obtain ⟨share, spreads⟩ := e.exists_spreads hn
  have whole (t : ℝ) (ht : 0 < t) : e.progress (real t) n = 1 ↔ n ≤ real t := by
    rw [spreads.progress, Exact.one_eq_real, Exact.real.injEq, spreads.whole t ht]
  refine ⟨fun t => ?_, fun s t order => ?_, fun t ht => ?_, whole, ?_, fun a b order => ?_, ?_⟩
  · rw [spreads.progress, Exact.zero_eq_real, Exact.one_eq_real]
    exact ⟨spreads.nonneg t, spreads.le_one t⟩
  · rw [spreads.progress, spreads.progress]
    exact spreads.mono order
  · rw [spreads.progress, spreads.of_nonpos t ht, Exact.zero_eq_real]
  · intro last start stop order time timing
    exact (timing.verdict_nonneg_iff hn order).trans (whole stop time).symm
  · rw [spreads.delta, Exact.zero_eq_real]
    exact sub_nonneg.2 (spreads.mono order)
  · intro a b c
    rw [spreads.delta, spreads.delta, spreads.delta, Exact.real_add_real]
    congr 1
    ring

/-- Through the seam of the piecewise curve up to the end of the lifespan. -/
theorem progress_agrees_with_completion_seam :
    let timing : Timing Exact := ⟨.easeInOut, real 4, some (real 1)⟩
    (0 : Exact) ≤ real 4 ∧ timing.progress (real 4) = 1 ∧
      0 ≤ timing.verdict ⟨real 1, real 4⟩ ∧
      0 ≤ Easing.easeInOut.delta (real 1) (real 3) (real 4) := by
  intro timing
  have lasting : (0 : Exact) ≤ real 4 := by simp
  have agrees := progress_agrees_with_completion .easeInOut lasting
  have complete : Easing.easeInOut.progress (real 4) (real 4) = 1 :=
    (agrees.2.2.2.1 4 (by norm_num)).2 (Exact.real_le_real.2 le_rfl)
  refine ⟨lasting, complete, ?_, agrees.2.2.2.2.2.1 1 3 (by norm_num)⟩
  exact (agrees.2.2.2.2.1 (some (real 1)) 1 4 (by norm_num) (by norm_num)).2 complete

end ParticlePatterns
