import ParticlePatterns.Proofs.Behavior.Completion
import ParticlePatterns.Proofs.Behavior.Echo
import ParticlePatterns.Proofs.Behavior.Portion

/-!
# Joining windows

Two windows that meet do to a sprite what a single one does that covers them both,
wherever the boundary falls: inside of a part, at the end of one, or at the end of a
lifespan that cuts the parts off.
-/

set_option autoImplicit false

namespace ParticlePatterns

open Exact (real)

variable {A : Set Component}

structure Alike (A : Set Component) (reply reply' : Reply Exact) : Prop where
  leftover : reply'.leftover = reply.leftover
  behavior : Mirrors A reply.behavior reply'.behavior
  twin : Twin A reply.stage.sprite reply'.stage.sprite

/-- What the answer to a window says about a longer one: if the behavior is complete, the
rest of the longer window changes nothing, and if not, then the rest of it does to what is
left what the longer window does. -/
def Joined (A : Set Component) (mid stop : ℝ) (first : Reply Exact)
    (Whole : Reply Exact → Prop) : Prop :=
  (¬first.leftover < 0 ∧ ∃ whole, Whole whole ∧ Twin A first.stage.sprite whole.stage.sprite) ∨
    (first.leftover < 0 ∧ ∀ second,
      first.behavior.update ⟨real mid, real stop⟩ first.stage = .ok second →
      ∃ whole, Whole whole ∧ Alike A second whole)

def Joins (A : Set Component) (now : ℝ) (b : Behavior Exact) : Prop :=
  ∀ mid stop, now < mid → mid < stop → ∀ stage stage' : Stage Exact,
    Twin A stage.sprite stage'.sprite → stage.sprite.rotation.IsReal → ∀ first,
    b.update ⟨real now, real mid⟩ stage = .ok first →
    Joined A mid stop first fun whole => b.update ⟨real now, real stop⟩ stage' = .ok whole

structure Joinable (A : Set Component) (now : ℝ) (b : Behavior Exact) : Prop where
  due : ∃ d, Due now b d
  mirrors : Mirrors A b b
  joins : Joins A now b

theorem Joined.imp {mid stop : ℝ} {first : Reply Exact} {Whole Whole' : Reply Exact → Prop}
    (h : Joined A mid stop first Whole) (more : ∀ whole, Whole whole → Whole' whole) :
    Joined A mid stop first Whole' := by
  obtain ⟨hn, whole, hw, twin⟩ | ⟨hn, all⟩ := h
  · exact .inl ⟨hn, whole, more whole hw, twin⟩
  · refine .inr ⟨hn, fun second hs => ?_⟩
    obtain ⟨whole, hw, alike⟩ := all second hs
    exact ⟨whole, more whole hw, alike⟩

theorem Echo.alike {before before' : Stage Exact} {reply reply' : Reply Exact}
    (h : Echo A before before' reply reply') : Alike A reply reply' :=
  ⟨h.leftover, h.behavior, h.twin⟩

theorem Mirrors.update {b : Behavior Exact} {w : Window Exact} {stage : Stage Exact}
    {reply : Reply Exact} (h : Mirrors A b b) (hu : b.update w stage = .ok reply) :
    Mirrors A reply.behavior reply.behavior ∧ Twin Aᶜ stage.sprite reply.stage.sprite := by
  obtain ⟨reply', hu', echo⟩ := h.simulates w stage stage reply (.refl A _) hu
  rw [hu] at hu'
  cases hu'
  exact ⟨echo.behavior, echo.kept⟩

theorem Mirrors.rotation_isReal {b : Behavior Exact} {w : Window Exact} {stage : Stage Exact}
    {reply : Reply Exact} (h : Mirrors A b b) (hu : b.update w stage = .ok reply)
    (hr : stage.sprite.rotation.IsReal) : reply.stage.sprite.rotation.IsReal := by
  rw [← (h.update hu).2.1]
  exact hr

namespace Joinable

variable {now mid stop : ℝ} {b : Behavior Exact} {stage stage' : Stage Exact}
  {answer : Reply Exact}

/-- What is complete in the first window is complete at the same time in the longer one. -/
theorem ended (h : Joinable A now b) (hmid : now < mid) (hstop : mid < stop)
    (twin : Twin A stage.sprite stage'.sprite) (hr : stage.sprite.rotation.IsReal)
    (hu : b.update ⟨real now, real mid⟩ stage = .ok answer) (hn : ¬answer.leftover < 0) :
    ∃ d whole, now ≤ d ∧ d ≤ mid ∧ answer.leftover = real (mid - d) ∧
      b.update ⟨real now, real stop⟩ stage' = .ok whole ∧ whole.leftover = real (stop - d) ∧
      ¬whole.leftover < 0 ∧ Twin A answer.stage.sprite whole.stage.sprite := by
  obtain ⟨d, due⟩ := h.due
  obtain ⟨_, whole, hw, twin'⟩ | ⟨negative, _⟩ := h.joins mid stop hmid hstop stage stage' twin hr
    answer hu
  · obtain ⟨within, leftover⟩ := (due.settles hmid.le hu).complete hn
    have leftover' := (due.settles (hmid.trans hstop).le hw).complete_of_lt (within.trans_lt hstop)
    refine ⟨d, whole, due.le, within, leftover, hw, leftover', ?_, twin'⟩
    rw [leftover']
    simpa using within.trans hstop.le
  · exact absurd negative hn

/-- What is left after the first window goes on like the longer one, also if the sprite has
changed elsewhere. -/
theorem continued (h : Joinable A now b) (hmid : now < mid) (hstop : mid < stop)
    (twin : Twin A stage.sprite stage'.sprite) (hr : stage.sprite.rotation.IsReal)
    (hu : b.update ⟨real now, real mid⟩ stage = .ok answer) (negative : answer.leftover < 0) :
    ∃ d, mid ≤ d ∧ ∀ (between : Stage Exact) (answer' : Reply Exact),
      Twin A between.sprite answer.stage.sprite →
      answer.behavior.update ⟨real mid, real stop⟩ between = .ok answer' → Settles stop d answer' ∧
      ∃ whole, b.update ⟨real now, real stop⟩ stage' = .ok whole ∧ Alike A answer' whole := by
  obtain ⟨d, due⟩ := h.due
  have due' := (due.settles hmid.le hu).due negative
  obtain ⟨hn, _⟩ | ⟨_, join⟩ := h.joins mid stop hmid hstop stage stage' twin hr answer hu
  · exact absurd negative hn
  · refine ⟨d, due'.le, fun between answer' back ha => ⟨due'.settles hstop.le ha, ?_⟩⟩
    obtain ⟨second, hs, echo⟩ := (h.mirrors.update hu).1.simulates _ _ answer.stage _ back ha
    obtain ⟨whole, hw, alike⟩ := join second hs
    exact ⟨whole, hw, alike.leftover.trans echo.leftover, echo.behavior.trans alike.behavior,
      echo.twin.trans alike.twin⟩

end Joinable

theorem joins_leaf {now d : ℝ} {timing : Timing Exact} {effect : Effect Exact}
    (h : Due now (.leaf timing effect) d) (acts : effect.Acts A) :
    Joins A now (.leaf timing effect) := by
  intro mid stop hmid hstop stage stage' twin hr first hu
  have hwhole := hmid.trans hstop
  cases h with
  | leaf awaits hl h0 hd =>
    rw [awaits.update_leaf hmid.le] at hu
    cases hu
    have whole := awaits.update_leaf hwhole.le effect stage'
    obtain ⟨same, twin'⟩ := acts.apply_twin timing (!timing.isRunning) ⟨real now, real stop⟩ twin
    by_cases past : d ≤ mid
    · have still : effect.apply timing (!timing.isRunning) ⟨real now, real mid⟩ stage.sprite =
          effect.apply timing (!timing.isRunning) ⟨real now, real stop⟩ stage.sprite :=
        Effect.apply_of_over hl past (past.trans hstop.le) (h0.trans_lt hmid)
          (h0.trans_lt hwhole) _ _
      refine .inl ⟨by simp [Timing.verdict, hl, past, hd], _, whole, ?_⟩
      rw [← still] at twin'
      exact twin'
    · have later := lt_of_not_ge past
      have alive : real mid < timing.lifespan := by simpa [hl] using later
      have nonneg : 0 ≤ timing.lifespan := by simpa [hl] using h0.trans hd
      have again : Timing.Awaits { timing with lastStop := some (real mid) } mid := .inr rfl
      have both : (effect.apply timing (!timing.isRunning) ⟨real now, real mid⟩
            stage.sprite).1.apply timing false ⟨real mid, real stop⟩
            (effect.apply timing (!timing.isRunning) ⟨real now, real mid⟩ stage.sprite).2 =
          effect.apply timing (!timing.isRunning) ⟨real now, real stop⟩ stage.sprite :=
        acts.apply_apply hl hstop.le _ hr
      refine .inr ⟨by simp [Timing.verdict, hl, past], fun second hs => ⟨_, whole, ?_⟩⟩
      rw [again.update_leaf hstop.le] at hs
      cases hs
      rw [← both] at same twin'
      refine ⟨Timing.verdict_start nonneg alive hmid.le, ?_, twin'⟩
      rw [← same]
      exact .leaf ((acts.apply _ _ _ _).1.apply _ _ _ _).1

end ParticlePatterns
