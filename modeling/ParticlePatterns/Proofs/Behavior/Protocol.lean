import ParticlePatterns.Proofs.Behavior.Clock
import ParticlePatterns.Proofs.Behavior.Watch

/-!
# The window protocol

The first window of a behavior starts at 0, every later one where the one before it
ended, no window is empty, and none comes after an answer that is not negative. A guard
on every behavior stops a window that does not keep to this; here it never does.
-/

set_option autoImplicit false

namespace ParticlePatterns

open Exact (real)

section Definitions

variable {α : Type} [Scalar α]

inductive Built : Behavior α → Prop
  | pause : Built .pause
  | modify {property : Property} {how : Modification} {operand : α} :
      Built (.modify property how operand)
  | switch {action : Action} : Built (.switch action)
  | translate {offset : Vec3 α} : Built (.translate offset)
  | rotate {degrees : Vec3 α} : Built (.rotate degrees)
  | emission {batch : Batch} {body : Gen α (Behavior α)} {b : Behavior α} : body.Total →
      (∀ c, body.Gives c → Built c) → Behavior.emission batch body = .ok b → Built b
  | loop {body : Gen α (Behavior α)} {sibling : Sibling} : body.Total →
      (∀ c, body.Gives c → Built c) → Built (.loop body sibling)
  | repetition {body : Gen α (Behavior α)} {sibling : Sibling} {limit : Nat} : body.Total →
      (∀ c, body.Gives c → Built c) → Built (.repetition body sibling limit)
  | sequence {bs : List (Behavior α)} : (∀ b ∈ bs, Built b) → Built (.sequence bs)
  | together {bs : List (Behavior α)} : (∀ b ∈ bs, Built b) → Built (.together bs)
  | easing {b c : Behavior α} {easing : Easing} : Built b → b.setEasing easing = .ok c → Built c
  | lifespan {b c : Behavior α} {lifespan : α} : Built b → b.setLifespan lifespan = .ok c →
      Built c

inductive History : Behavior α → List (Window α × α) → Prop
  | start {b : Behavior α} : Built b → History b []
  | window {b : Behavior α} {past : List (Window α × α)} {w : Window α} {stage : Stage α}
      {reply : Reply α} : History b past → b.update w stage = .ok reply →
      History reply.behavior ((w, reply.leftover) :: past)

def Follows : List (Window α × α) → Window α → Prop
  | [], w => w.start = 0 ∧ w.start < w.stop
  | (before, answer) :: _, w => w.start = before.stop ∧ w.start < w.stop ∧ answer < 0

def Known (b : Behavior α) : Prop :=
  ∃ past, History b past

def Admissible (b : Behavior α) (w : Window α) : Prop :=
  Known b ∧ ∀ past, History b past → Follows past w

open scoped Classical in
noncomputable def guard (alarm : Fault α) : Watch α :=
  fun b update w stage => if Admissible b w then update w stage else .error alarm

theorem guard_within (alarm : Fault α) (b : Behavior α) (u : Update α) :
    (guard alarm b u).Within u := by
  intro w stage reply h
  unfold guard at h
  split at h
  · exact h
  · cases h

theorem Built.not_running {b : Behavior α} (h : Built b) : b.timing.lastStop = none := by
  induction h with
  | emission _ _ hb =>
    unfold Behavior.emission at hb
    split at hb
    · cases hb
    · cases hb
      rfl
  | easing _ hb ih =>
    obtain ⟨timing, ht, rfl⟩ := map_eq_ok.1 hb
    unfold Timing.setEasing at ht
    split at ht
    · cases ht
    · cases ht
      simpa using ih
  | lifespan _ hb ih =>
    obtain ⟨timing, ht, rfl⟩ := map_eq_ok.1 hb
    unfold Timing.setLifespan at ht
    split at ht
    · cases ht
    · split at ht
      · cases ht
        simpa using ih
      · cases ht
  | _ => rfl

/-- Only the end of the last window changes in the timing. -/
theorem Behavior.timing_of_update {b : Behavior α} {w : Window α} {stage : Stage α}
    {reply : Reply α} (h : b.update w stage = .ok reply) :
    reply.behavior.timing = { b.timing with lastStop := some w.stop } := by
  cases b with
  | leaf timing effect =>
    obtain ⟨first, entered, he, rfl⟩ := Effect.update_eq_ok.1 h
    exact (Timing.enter_eq_ok he).2
  | emit timing batch body =>
    obtain ⟨first, entered, after, he, _, rfl⟩ := Batch.update_eq_ok.1 h
    exact (Timing.enter_eq_ok he).2
  | chain timing supply current offset fresh =>
    rw [update_chain] at h
    obtain ⟨first, entered, he, h⟩ := Chain.update_eq_ok.1 h
    have kept : reply.behavior.timing = entered := by
      split at h
      · obtain ⟨taken, after, rng, _, h⟩ := h
        exact h.timing_eq
      · exact h.timing_eq
    rw [kept]
    exact (Timing.enter_eq_ok he).2
  | parallel timing branches =>
    rw [update_parallel] at h
    obtain ⟨first, entered, result, he, _, rfl⟩ := Branch.update_eq_ok.1 h
    exact (Timing.enter_eq_ok he).2

end Definitions

section Completion

def Behavior.Exhausted {α : Type} : Behavior α → Prop
  | .leaf _ _ => False
  | .emit _ _ _ => False
  | .chain _ _ current _ _ => current = none
  | .parallel _ branches => ∀ p ∈ branches, p.2 ≠ none

def Behavior.Over (b : Behavior Exact) : Prop :=
  ∃ time, b.timing.lastStop = some time ∧ (b.timing.lifespan ≤ time ∨ b.Exhausted)

section Endings

variable {α : Type} [Scalar α] {update : Behavior α → Update α} {timing : Timing α} {w : Window α}
  {stop : α}

/-- A chain answers what its timing does, as long as there is something left to drive. -/
theorem Chain.Course.answer {steps : Nat} {now : α} {supply : Supply α}
    {current : Option (Behavior α)} {offset : α} {fresh : Bool} {stage : Stage α}
    {reply : Reply α}
    (h : Course update timing w stop steps now supply current offset fresh stage reply) :
    reply.leftover = timing.verdict w ∨ reply.behavior.Exhausted := by
  induction h with
  | idle => exact .inr rfl
  | ends => exact .inr rfl
  | turns _ _ _ _ _ ih => exact ih
  | _ => exact .inl rfl

/-- The answer is that of the timing, unless nothing is left to drive. -/
theorem Behavior.answer_of_update {b : Behavior α} {stage : Stage α} {reply : Reply α}
    (h : b.update w stage = .ok reply) :
    reply.leftover = b.timing.verdict w ∨ reply.behavior.Exhausted := by
  cases b with
  | leaf timing effect =>
    obtain ⟨first, entered, he, rfl⟩ := Effect.update_eq_ok.1 h
    obtain ⟨_, rfl⟩ := Timing.enter_eq_ok he
    exact .inl rfl
  | emit timing batch body =>
    obtain ⟨first, entered, after, he, _, rfl⟩ := Batch.update_eq_ok.1 h
    obtain ⟨_, rfl⟩ := Timing.enter_eq_ok he
    exact .inl rfl
  | chain timing supply current offset fresh =>
    rw [update_chain] at h
    obtain ⟨first, entered, he, h⟩ := Chain.update_eq_ok.1 h
    obtain ⟨_, rfl⟩ := Timing.enter_eq_ok he
    split at h
    · obtain ⟨taken, after, rng, _, h⟩ := h
      exact h.answer
    · exact h.answer
  | parallel timing branches =>
    rw [update_parallel] at h
    obtain ⟨first, entered, result, he, hr, rfl⟩ := Branch.update_eq_ok.1 h
    obtain ⟨_, rfl⟩ := Timing.enter_eq_ok he
    cases hc : result.complete with
    | true => exact .inr (hr.exhausted hc).2
    | false => exact .inl rfl

end Endings

theorem Timing.lifespan_le_of_verdict {timing : Timing Exact} {w : Window Exact}
    (h : ¬timing.verdict w < 0) : timing.lifespan ≤ w.stop := by
  unfold verdict at h
  split at h
  · assumption
  · exact absurd (by simp : (-1 : Exact) < 0) h

/-- Whatever the window was, an answer that is not negative is the last one. -/
theorem Behavior.over_of_update {b : Behavior Exact} {w : Window Exact} {stage : Stage Exact}
    {reply : Reply Exact} (h : b.update w stage = .ok reply) (hn : ¬reply.leftover < 0) :
    reply.behavior.Over := by
  have ht := timing_of_update h
  refine ⟨w.stop, by rw [ht], ?_⟩
  rw [ht]
  obtain verdict | left := answer_of_update h
  · exact .inl (Timing.lifespan_le_of_verdict (verdict ▸ hn))
  · exact .inr left

end Completion

end ParticlePatterns
