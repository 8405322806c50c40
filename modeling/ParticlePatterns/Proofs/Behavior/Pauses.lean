import ParticlePatterns.Proofs.Behavior.Poised

/-!
# A loop of pauses

Pauses take no time, so a loop of them is stopped by the number of its turns. In a window without
an end it says that an undefined amount of time is left, which is neither what a behavior says that
goes on nor what one says that is complete.
-/

set_option autoImplicit false

namespace ParticlePatterns

variable {α : Type} [Scalar α] [Scalar.Rounded α]

open Scalar Compared Rounded

namespace Scalar

theorem infinity_le_infinity : (infinity : α) ≤ infinity :=
  (defined Signed.zero_le_infinity).2

theorem infinity_sub_zero : infinity - 0 = (infinity : α) :=
  infinity_sub (defined (sub_le_sub infinity_le_infinity .zero)).1

theorem not_infinity_sub_infinity_nonneg : ¬0 ≤ (infinity - infinity : α) :=
  fun h => infinity_sub_infinity (defined h).2

theorem not_infinity_sub_infinity_neg : ¬(infinity - infinity : α) < 0 :=
  fun h => infinity_sub_infinity (defined (le_of_lt h)).1

theorem max_undefined_left {x : α} (h : ¬x ≤ x) (y : α) : Scalar.max x y = y := by
  rw [Scalar.max, if_neg fun below => h (defined below).1, if_neg h]

theorem max_infinity_zero : Scalar.max infinity 0 = (infinity : α) := by
  rw [Scalar.max, if_neg (not_le_of_lt zero_lt_infinity), if_pos infinity_le_infinity]

end Scalar

/-- The turns of a loop of pauses are limited by nothing but their number. -/
theorem Chain.pauses_course (timing : Timing α) (w : Window α) (s : Sibling) (steps : Nat)
    (stage : Stage α) :
    Course Behavior.update timing w infinity steps 0 (.body (Gen.constant .pause) s none)
      (some .pause) 0 true stage ⟨timing.verdict w,
        .chain timing (.body (Gen.constant .pause) s none) (some .pause) 0 true, stage⟩ := by
  have nowhere : Scalar.max 0 0 = (0 : α) := by
    rw [Scalar.max, if_pos Signed.zero_le_zero]
  induction steps with
  | zero => exact .spent
  | succ steps ih =>
    let answer : Reply α :=
      ⟨infinity, .leaf { Timing.instant with lastStop := some infinity } .pause, stage⟩
    have awaits : (Timing.instant : Timing α).AwaitsAt 0 :=
      ⟨Signed.zero_le_zero, .inl ⟨rfl, rfl⟩⟩
    have left : ({ Timing.instant with lastStop := some infinity } : Timing α).verdict
        ⟨0, infinity⟩ = infinity := by
      show (if (0 : α) ≤ infinity then infinity - Scalar.max 0 0 else -1) = infinity
      rw [if_pos Signed.zero_le_infinity, nowhere, infinity_sub_zero]
    have paused : (Behavior.pause : Behavior α).update (childWindow 0 infinity 0 true) stage =
        .ok answer := by
      show Effect.update Timing.instant .pause ⟨0, infinity - 0⟩ stage = _
      rw [infinity_sub_zero]
      refine Effect.update_eq_ok.2 ⟨_, _, awaits.enter .zero Signed.zero_le_infinity, ?_⟩
      rw [left]
      rfl
    have now : Scalar.max (infinity - answer.leftover) 0 = (0 : α) :=
      max_undefined_left infinity_sub_infinity 0
    have more : ¬infinity ≤ Scalar.max (infinity - answer.leftover) (0 : α) := by
      rw [now]
      exact not_le_of_lt zero_lt_infinity
    refine .turns paused (fun negative => not_le_of_lt negative Signed.zero_le_infinity) rfl more ?_
    rw [now]
    exact ih

/-- A loop of pauses comes to no end of its own, and does not tell what is left. -/
theorem Behavior.loop_pause_update (s : Sibling) (stage : Stage α) :
    (loop (Gen.constant .pause) s).update ⟨0, infinity⟩ stage =
      .ok ⟨infinity - infinity, .chain { Timing.unbounded with lastStop := some infinity }
        (.body (Gen.constant .pause) s none) (some .pause) 0 true, stage⟩ := by
  let timing : Timing α := { Timing.unbounded with lastStop := some infinity }
  have awaits : (Timing.unbounded : Timing α).AwaitsAt 0 :=
    ⟨Signed.zero_le_infinity, .inl ⟨rfl, rfl⟩⟩
  have whole : Window.stopWithin ⟨0, infinity⟩ (infinity : α) = infinity := by
    rw [Window.stopWithin, if_pos zero_lt_infinity, Scalar.min, if_pos infinity_le_infinity]
  have left : timing.verdict ⟨0, infinity⟩ = infinity - infinity := by
    show (if (infinity : α) ≤ infinity then infinity - Scalar.max infinity 0 else -1) = _
    rw [if_pos infinity_le_infinity, max_infinity_zero]
  have course := Chain.pauses_course timing ⟨0, infinity⟩ s Chain.stepLimit stage
  rw [left] at course
  rw [loop, ofSupply, update_chain]
  refine Chain.update_eq_ok.2 ⟨true, timing, awaits.enter .zero Signed.zero_le_infinity,
    some .pause, _, stage.rng, rfl, ?_⟩
  show Chain.Course _ _ _ (Window.stopWithin ⟨0, infinity⟩ infinity) _ _ _ _ _ _ _ _
  rw [whole]
  exact course

end ParticlePatterns
