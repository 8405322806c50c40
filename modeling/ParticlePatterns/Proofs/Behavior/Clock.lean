import ParticlePatterns.Proofs.Behavior.Course
import ParticlePatterns.Proofs.Number.Exact

/-!
# Clocks

How timing answers the window it awaits when times are exact: which window that is,
whether the lifespan is over at its end, and where it is cut off.
-/

set_option autoImplicit false

namespace ParticlePatterns

open Exact (real)

namespace Timing

def Awaits (t : Timing Exact) (now : ℝ) : Prop :=
  (t.lastStop = none ∧ now = 0) ∨ t.lastStop = some (real now)

/-- Awaiting a window, and not over yet. A first window is awaited even by what takes no
time. -/
def Alive (t : Timing Exact) (now : ℝ) : Prop :=
  (t.lastStop = none ∧ now = 0 ∧ 0 ≤ t.lifespan) ∨
    (t.lastStop = some (real now) ∧ 0 ≤ t.lifespan ∧ real now < t.lifespan)

variable {t : Timing Exact} {now stop : ℝ}

theorem Alive.awaits (h : t.Alive now) : t.Awaits now := by
  obtain ⟨hn, h0, _⟩ | ⟨hs, _⟩ := h
  · exact .inl ⟨hn, h0⟩
  · exact .inr hs

theorem Alive.nonneg (h : t.Alive now) : 0 ≤ t.lifespan := by
  obtain ⟨_, _, hl⟩ | ⟨_, hl, _⟩ := h
  · exact hl
  · exact hl

theorem Awaits.enter_of_le (h : t.Awaits now) {stop : Exact} (hw : real now ≤ stop) :
    t.enter ⟨real now, stop⟩ = .ok (!t.isRunning, { t with lastStop := some stop }) := by
  unfold Timing.enter isRunning
  rw [if_pos hw]
  obtain ⟨hn, rfl⟩ | hs := h
  · simp [hn]
  · have meets : Meets (real now) (real now) := by
      simp [Meets, Exact.real_div_real]
    simp [hs, meets]

theorem Awaits.enter (h : t.Awaits now) (hw : now ≤ stop) :
    t.enter ⟨real now, real stop⟩ =
      .ok (!t.isRunning, { t with lastStop := some (real stop) }) :=
  h.enter_of_le (Exact.real_le_real.2 hw)

/-- A lifespan that is over at the end of a window, or is not. -/
theorem verdict_cases (h : 0 ≤ t.lifespan) :
    (∃ l, t.lifespan = real l ∧ 0 ≤ l ∧ l ≤ stop ∧
      t.verdict ⟨real now, real stop⟩ = real (stop - max l now)) ∨
    (real stop < t.lifespan ∧ t.verdict ⟨real now, real stop⟩ = real (-1)) := by
  unfold verdict
  obtain ⟨l, hl, h0⟩ | hl := Exact.eq_real_or_eq_infinity h
  · rw [hl]
    by_cases hs : l ≤ stop
    · exact .inl ⟨l, rfl, h0, hs, by simp [hs]⟩
    · exact .inr ⟨by simpa using hs, by simp [hs]⟩
  · rw [hl]
    exact .inr ⟨by simp, by simp⟩

/-- As long as the lifespan is not over, the start of the window does not matter. -/
theorem verdict_start {start : ℝ} (h : 0 ≤ t.lifespan) (alive : real now < t.lifespan)
    (hs : start ≤ now) :
    t.verdict ⟨real start, real stop⟩ = t.verdict ⟨real now, real stop⟩ := by
  unfold verdict
  obtain ⟨l, hl, h0⟩ | hl := Exact.eq_real_or_eq_infinity h
  · have later : now < l := by simpa [hl] using alive
    simp [hl, max_eq_left later.le, max_eq_left (hs.trans later.le)]
  · simp [hl]

def CutsAt (t : Timing Exact) (start stop cut : ℝ) : Prop :=
  (real stop < t.lifespan ∧ cut = stop ∧ t.verdict ⟨real start, real stop⟩ = real (-1)) ∨
    (t.lifespan = real cut ∧ cut ≤ stop ∧
      t.verdict ⟨real start, real stop⟩ = real (stop - cut))

theorem exists_cutsAt (h : 0 ≤ t.lifespan) (alive : real now < t.lifespan) (hw : now ≤ stop) :
    ∃ cut, Window.stopWithin ⟨real now, real stop⟩ t.lifespan = real cut ∧ now ≤ cut ∧
      t.CutsAt now stop cut := by
  unfold Window.stopWithin CutsAt verdict
  obtain ⟨l, hl, h0⟩ | hl := Exact.eq_real_or_eq_infinity h
  · have later : now < l := by simpa [hl] using alive
    have e : (if real now < t.lifespan then Scalar.min (real stop) t.lifespan else real stop) =
        real (min stop l) := by simp [hl, later]
    refine ⟨min stop l, e, le_min hw later.le, ?_⟩
    by_cases hs : stop < l
    · exact .inl ⟨by simpa [hl] using hs, min_eq_left hs.le, by simp [hl, hs]⟩
    · have hs := le_of_not_gt hs
      rw [min_eq_right hs]
      exact .inr ⟨hl, hs, by simp [hl, hs, max_eq_left later.le]⟩
  · exact ⟨stop, by simp [hl], hw, .inl ⟨by simp [hl], rfl, by simp [hl]⟩⟩

namespace CutsAt

variable {start cut : ℝ}

theorem le_stop (h : t.CutsAt start stop cut) : cut ≤ stop := by
  obtain ⟨_, rfl, _⟩ | ⟨_, hs, _⟩ := h
  · exact le_refl _
  · exact hs

theorem le_lifespan (h : t.CutsAt start stop cut) : real cut ≤ t.lifespan := by
  obtain ⟨hl, rfl, _⟩ | ⟨hl, _⟩ := h
  · exact Exact.real_le_of_lt hl
  · rw [hl, Exact.real_le_real]

end CutsAt

/-- Behind the end of the lifespan a window may end when it likes. -/
theorem stopWithin_of_over {start mid : ℝ} (h : 0 ≤ t.lifespan)
    (alive : real start < t.lifespan) (past : ¬real mid < t.lifespan) (hm : mid ≤ stop) :
    Window.stopWithin ⟨real start, real mid⟩ t.lifespan =
      Window.stopWithin ⟨real start, real stop⟩ t.lifespan := by
  obtain ⟨l, hl, _⟩ | hl := Exact.eq_real_or_eq_infinity h
  · rw [hl, Exact.real_lt_real] at alive past
    have earlier := le_of_not_gt past
    simp [Window.stopWithin, hl, alive, earlier, earlier.trans hm]
  · simp [hl] at past

structure Seam (t : Timing Exact) (start mid stop cut : ℝ) : Prop where
  before : Window.stopWithin ⟨real start, real mid⟩ t.lifespan = real mid
  behind : Window.stopWithin ⟨real mid, real stop⟩ t.lifespan = real cut
  whole : Window.stopWithin ⟨real start, real stop⟩ t.lifespan = real cut
  later : mid < cut
  le_stop : cut ≤ stop
  unfinished : t.verdict ⟨real start, real mid⟩ < 0
  same : t.verdict ⟨real start, real stop⟩ = t.verdict ⟨real mid, real stop⟩

theorem exists_seam {start mid : ℝ} (h : 0 ≤ t.lifespan) (alive : real mid < t.lifespan)
    (hs : start ≤ mid) (hm : mid < stop) : ∃ cut, t.Seam start mid stop cut := by
  have started : real start < t.lifespan := by
    obtain ⟨l, hl, _⟩ | hl := Exact.eq_real_or_eq_infinity h
    · rw [hl, Exact.real_lt_real] at alive ⊢
      exact hs.trans_lt alive
    · simp [hl]
  obtain ⟨cut, hc, later, cuts⟩ := exists_cutsAt h alive hm.le
  obtain ⟨cut', hc', later', cuts'⟩ := exists_cutsAt h started hs
  have open' : cut' = mid ∧ t.verdict ⟨real start, real mid⟩ = real (-1) := by
    obtain ⟨_, e, hv⟩ | ⟨e, within, _⟩ := cuts'
    · exact ⟨e, hv⟩
    · rw [e, Exact.real_lt_real] at alive
      exact absurd within (not_le_of_gt alive)
  have strict : mid < cut := by
    obtain ⟨_, rfl, _⟩ | ⟨e, _⟩ := cuts
    · exact hm
    · rwa [e, Exact.real_lt_real] at alive
  refine ⟨cut, by rw [hc', open'.1], hc, ?_, strict, cuts.le_stop, by simp [open'.2],
    verdict_start h alive hs⟩
  rw [← hc]
  simp [Window.stopWithin, started, alive]

structure Endless (t : Timing Exact) (now : ℝ) : Prop where
  lifespan : t.lifespan = Scalar.infinity
  lastStop : t.lastStop = some (real now)

theorem Endless.verdict (h : t.Endless stop) (start : Exact) :
    t.verdict ⟨start, real stop⟩ = real (-1) := by
  simp [Timing.verdict, h.lifespan]

theorem Endless.enter (h : t.Endless now) (hw : now ≤ stop) :
    t.enter ⟨real now, real stop⟩ = .ok (false, { t with lastStop := some (real stop) }) := by
  rw [Awaits.enter (.inr h.lastStop) hw, isRunning, h.lastStop]
  rfl

theorem enter_new (hn : t.lastStop = none) (hw : 0 ≤ stop) :
    t.enter ⟨real 0, real stop⟩ = .ok (true, { t with lastStop := some (real stop) }) := by
  rw [Awaits.enter (.inl ⟨hn, rfl⟩) hw, isRunning, hn]
  rfl

theorem stopWithin_endless (hl : t.lifespan = Scalar.infinity) :
    Window.stopWithin ⟨real now, real stop⟩ t.lifespan = real stop := by
  simp [Window.stopWithin, hl]

end Timing

noncomputable def childStart (now offset : ℝ) (fresh : Bool) : ℝ :=
  if fresh then 0 else now - offset

theorem childStart_eq {now offset : ℝ} {fresh : Bool} (h : fresh = true → offset = now) :
    childStart now offset fresh = now - offset := by
  cases fresh with
  | false => rfl
  | true => simp [childStart, h rfl]

@[simp] theorem childWindow_real (now stop offset : ℝ) (fresh : Bool) :
    Chain.childWindow (real now) (real stop) (real offset) fresh =
      ⟨real (childStart now offset fresh), real (stop - offset)⟩ := by
  cases fresh <;> simp [Chain.childWindow, childStart]

section Updates

/-! What a window is answered from, once the clock has let it pass. -/

variable {update : Behavior Exact → Update Exact} {timing : Timing Exact} {now stop : ℝ}
  {stage : Stage Exact} {reply : Reply Exact}

theorem Timing.Awaits.update_leaf (h : timing.Awaits now) (hw : now ≤ stop)
    (effect : Effect Exact) (stage : Stage Exact) :
    let entered := { timing with lastStop := some (real stop) }
    let applied := effect.apply timing (!timing.isRunning) ⟨real now, real stop⟩ stage.sprite
    (Behavior.leaf timing effect).update ⟨real now, real stop⟩ stage =
      .ok ⟨timing.verdict ⟨real now, real stop⟩, .leaf entered applied.1,
        { stage with sprite := applied.2 }⟩ :=
  Effect.update_eq_ok.2 ⟨_, _, h.enter hw, rfl⟩

theorem Timing.Awaits.update_pause (h : timing.Awaits now) (hw : now ≤ stop)
    (stage : Stage Exact) :
    (Behavior.leaf timing .pause).update ⟨real now, real stop⟩ stage =
      .ok ⟨timing.verdict ⟨real now, real stop⟩,
        .leaf { timing with lastStop := some (real stop) } .pause, stage⟩ :=
  h.update_leaf hw .pause stage

theorem Chain.update_first_iff {supply : Supply Exact} {current : Option (Behavior Exact)}
    {offset : Exact} {fresh : Bool} (hn : timing.lastStop = none) (hw : 0 ≤ stop) :
    Chain.update timing (.wakeBy update supply current offset fresh) ⟨real 0, real stop⟩ stage =
      .ok reply ↔
    ∃ taken after rng, supply.next stage.rng = .ok (taken, after, rng) ∧
      Course update { timing with lastStop := some (real stop) } ⟨real 0, real stop⟩
        (Window.stopWithin ⟨real 0, real stop⟩ timing.lifespan) stepLimit (real 0) after taken
        (real 0) true { stage with rng } reply := by
  have awaits : timing.Awaits 0 := .inl ⟨hn, rfl⟩
  have first : (!timing.isRunning) = true := by simp [Timing.isRunning, hn]
  rw [update_eq_ok, awaits.enter hw, ← Exact.zero_eq_real]
  constructor
  · rintro ⟨_, _, he, h⟩
    cases he
    rwa [if_pos first] at h
  · intro h
    exact ⟨_, _, rfl, by rwa [if_pos first]⟩

theorem Chain.update_running_iff {supply : Supply Exact} {current : Option (Behavior Exact)}
    {offset : Exact} {fresh : Bool} (hs : timing.lastStop = some (real now)) (hw : now ≤ stop) :
    Chain.update timing (.wakeBy update supply current offset fresh) ⟨real now, real stop⟩ stage =
      .ok reply ↔
    Course update { timing with lastStop := some (real stop) } ⟨real now, real stop⟩
      (Window.stopWithin ⟨real now, real stop⟩ timing.lifespan) stepLimit (real now) supply current
      offset fresh stage reply := by
  have awaits : timing.Awaits now := .inr hs
  have running : (!timing.isRunning) = false := by simp [Timing.isRunning, hs]
  rw [update_eq_ok, awaits.enter hw, running]
  constructor
  · rintro ⟨_, _, he, h⟩
    cases he
    exact h
  · intro h
    exact ⟨_, _, rfl, h⟩

theorem Branch.update_iff {branches : List (Behavior Exact × Option Exact)}
    (h : timing.Awaits now) (hw : now ≤ stop) :
    Branch.update timing (wakeBy update branches) ⟨real now, real stop⟩ stage = .ok reply ↔
    ∃ result, Course update (real now) (Window.stopWithin ⟨real now, real stop⟩ timing.lifespan)
      branches (real now) true stage result ∧
      reply = ⟨if result.complete = true then real stop - result.latest
          else timing.verdict ⟨real now, real stop⟩,
        .parallel { timing with lastStop := some (real stop) } result.branches, result.stage⟩ := by
  rw [update_eq_ok, h.enter hw]
  constructor
  · rintro ⟨_, _, result, he, course, rfl⟩
    cases he
    exact ⟨result, course, rfl⟩
  · rintro ⟨result, course, rfl⟩
    exact ⟨_, _, result, rfl, course, rfl⟩

end Updates

end ParticlePatterns
