import ParticlePatterns.Proofs.Behavior.Emission
import ParticlePatterns.Proofs.Behavior.Telescoping

/-!
# Sweeps

A sweep drives a behavior by all windows of a time on one stage, those behind its completion
included. For an effect that does the same whatever windows it has had, what every window keeps
is kept by the whole sweep. So if each window takes what one share of the effect makes of a sprite
to what the next share makes, the sweep comes to what the last share makes.
-/

set_option autoImplicit false

namespace ParticlePatterns

open Exact (real)

def Spans : ℝ → ℝ → List (Window Exact) → Prop
  | now, stop, [] => now = stop
  | now, stop, w :: rest =>
      ∃ mid, now ≤ mid ∧ w = ⟨real now, real mid⟩ ∧ Spans mid stop rest

theorem Spans.exists_of_mem {stop : ℝ} {w : Window Exact} : ∀ {ws : List (Window Exact)} {now : ℝ},
    Spans now stop ws → w ∈ ws → ∃ a b, now ≤ a ∧ a ≤ b ∧ w = ⟨real a, real b⟩
  | _ :: _, _, ⟨mid, later, here, rest⟩, h => by
    obtain rfl | h := List.mem_cons.1 h
    · exact ⟨_, mid, le_rfl, later, here⟩
    · obtain ⟨a, b, behind, order, same⟩ := rest.exists_of_mem h
      exact ⟨a, b, later.trans behind, order, same⟩

def Behavior.sweep {α : Type} [Scalar α] (b : Behavior α) :
    List (Window α) → Stage α → Except (Fault α) (Stage α)
  | [], stage => .ok stage
  | w :: rest, stage => do
      let reply ← b.update w stage
      reply.behavior.sweep rest reply.stage

namespace Easing

variable {e : Easing} {n a b : ℝ}

theorem realShare_linear (hn : 0 < n) (h0 : 0 ≤ a) (ha : a ≤ n) : linear.realShare n a = a / n := by
  have below : a / n ≤ 1 := (div_le_one hn).2 ha
  have above : 0 ≤ a / n := by positivity
  rw [realShare, realRatio, if_neg (not_le_of_gt hn), min_eq_right below, max_eq_right above,
    realCurve]

def Fractional (e : Easing) (lifespan : Exact) (w : Window Exact) : Prop :=
  0 < e.progress w.stop lifespan ∧ e.progress w.stop lifespan < 1

theorem fractional_iff :
    e.Fractional (real n) ⟨real a, real b⟩ ↔ 0 < e.realShare n b ∧ e.realShare n b < 1 := by
  simp only [Fractional, progress, ratio_real, curve_real, realShare, Exact.zero_eq_real,
    Exact.one_eq_real, Exact.real_lt_real]

theorem share_of_not_fractional (h : ¬e.Fractional (real n) ⟨real a, real b⟩) :
    e.realShare n b = 0 ∨ e.realShare n b = 1 := by
  rw [fractional_iff, not_and, not_lt] at h
  obtain nothing | some := (e.realShare_nonneg n b).eq_or_lt
  · exact .inl nothing.symm
  · exact .inr ((e.realShare_le_one n b).antisymm (h some))

/-- A lifespan of nothing has no share in between. -/
theorem not_fractional_of_nonpos (hn : n ≤ 0) : ¬e.Fractional (real n) ⟨real a, real b⟩ := by
  rw [fractional_iff]
  rintro ⟨some, notAll⟩
  rw [realShare, realRatio, if_pos hn] at some notAll
  split at some
  · rw [if_pos ‹_›, realCurve_one] at notAll
    exact lt_irrefl 1 notAll
  · rw [realCurve_zero] at some
    exact lt_irrefl 0 some

end Easing

namespace Effect

def Memoryless {α : Type} [Scalar α] (e : Effect α) : Prop :=
  ∀ t first w s, e.apply t first w s = (e, (e.apply t false w s).2)

/-- What is good before a window and those that follow it is good again behind this window, for
the windows that are left up to a last moment. -/
def Preserves (e : Effect Exact) (easing : Easing) (n stop : ℝ)
    (good : ℝ → List (Window Exact) → Sprite Exact → Prop) : Prop :=
  ∀ {now mid : ℝ} {rest : List (Window Exact)} {s : Sprite Exact}, now ≤ mid →
    Spans mid stop rest → good now (⟨real now, real mid⟩ :: rest) s →
    good mid rest (e.apply ⟨easing, real n, none⟩ false ⟨real now, real mid⟩ s).2

namespace Memoryless

variable {e : Effect Exact} {easing : Easing} {n stop : ℝ} {ws : List (Window Exact)}

theorem sweep_cons (he : e.Memoryless) {now mid : ℝ} {last : Option Exact}
    (awaits : (⟨easing, real n, last⟩ : Timing Exact).Awaits now) (later : now ≤ mid)
    (stage : Stage Exact) :
    (Behavior.leaf ⟨easing, real n, last⟩ e).sweep (⟨real now, real mid⟩ :: ws) stage =
      (Behavior.leaf ⟨easing, real n, some (real mid)⟩ e).sweep ws { stage with
        sprite := (e.apply ⟨easing, real n, none⟩ false ⟨real now, real mid⟩ stage.sprite).2 } := by
  have same := e.apply_lastStop ⟨easing, real n, none⟩ last (!last.isSome)
    ⟨real now, real mid⟩ stage.sprite
  rw [Behavior.sweep, awaits.update_leaf later e stage]
  simp only [Timing.isRunning, same]
  rw [he]
  rfl

/-- What is kept by every window is kept by all of them. -/
theorem exists_sweep (he : e.Memoryless)
    {good : ℝ → List (Window Exact) → Sprite Exact → Prop}
    (step : e.Preserves easing n stop good) :
    ∀ {ws : List (Window Exact)} {now : ℝ} {last : Option Exact} {stage : Stage Exact},
      (⟨easing, real n, last⟩ : Timing Exact).Awaits now → Spans now stop ws →
      good now ws stage.sprite →
      ∃ sprite, (Behavior.leaf ⟨easing, real n, last⟩ e).sweep ws stage =
        .ok { stage with sprite } ∧ good stop [] sprite
  | [], _, _, stage, _, rfl, start => ⟨stage.sprite, rfl, start⟩
  | _ :: _, _, _, stage, awaits, ⟨_, later, rfl, cover⟩, start => by
    rw [he.sweep_cons awaits later]
    exact he.exists_sweep step (.inr rfl) cover (step later cover start)

/-- Windows that take what one share makes to what the next one makes. It is enough that those
do that begin and end with nothing or with all of the effect, if there are no others. -/
theorem sweep_eq (he : e.Memoryless) (made : ℝ → Sprite Exact) {always : Prop}
    (step : ∀ {a b : ℝ}, a ≤ b →
      (always ∨ (easing.realShare n a = 0 ∨ easing.realShare n a = 1) ∧
        (easing.realShare n b = 0 ∨ easing.realShare n b = 1)) →
      (e.apply ⟨easing, real n, none⟩ false ⟨real a, real b⟩ (made (easing.realShare n a))).2 =
        made (easing.realShare n b))
    (hw : Spans 0 stop ws) (h : always ∨ ∀ w ∈ ws, ¬easing.Fractional (real n) w)
    {stage : Stage Exact} (start : stage.sprite = made 0) :
    (Behavior.leaf ⟨easing, real n, none⟩ e).sweep ws stage =
      .ok { stage with sprite := made (easing.realShare n stop) } := by
  let good (now : ℝ) (rest : List (Window Exact)) (s : Sprite Exact) : Prop :=
    s = made (easing.realShare n now) ∧
      (always ∨ (easing.realShare n now = 0 ∨ easing.realShare n now = 1) ∧
        ∀ w ∈ rest, ¬easing.Fractional (real n) w)
  have first : good 0 ws stage.sprite :=
    ⟨by rw [start, easing.realShare_zero], h.imp_right fun whole =>
      ⟨.inl (easing.realShare_zero n), whole⟩⟩
  have next : e.Preserves easing n stop good := by
    rintro now mid rest s later - ⟨rfl, kind⟩
    have ends : always ∨ (easing.realShare n now = 0 ∨ easing.realShare n now = 1) ∧
        (easing.realShare n mid = 0 ∨ easing.realShare n mid = 1) :=
      kind.imp_right fun whole =>
        ⟨whole.1, Easing.share_of_not_fractional (whole.2 _ List.mem_cons_self)⟩
    refine ⟨step later ends, ?_⟩
    obtain every | ⟨-, others⟩ := kind
    · exact .inl every
    · exact ends.imp_right fun whole => ⟨whole.2, fun w hw => others w (List.mem_cons_of_mem _ hw)⟩
  obtain ⟨sprite, run, rfl, -⟩ := he.exists_sweep next (.inl ⟨rfl, rfl⟩) hw first
  exact run

end Memoryless

end Effect

end ParticlePatterns
