import ParticlePatterns.Proofs.Behavior.Answers

/-!
# Guarded updates

A guard lets every window of a ready behavior pass that is not empty. With a guard on it and on
all its parts, a ready behavior still answers every window.
-/

set_option autoImplicit false

namespace ParticlePatterns

open Exact (real)

def Drives (update : Behavior Exact → Update Exact) (now : ℝ) (b : Behavior Exact) : Prop :=
  ∀ stop, now < stop → ∀ stage, ∃ reply, update b ⟨real now, real stop⟩ stage = .ok reply ∧
    Answered now stop stage reply ∧ Known reply.behavior

theorem guard_lenient (alarm : Fault Exact) : Lenient (0 < ·) (guard alarm) where
  within := guard_within alarm
  passes h hk length u := by
    funext stage
    rw [guard, if_pos (h.admissible hk (sub_pos.1 length))]

theorem Ready.drives (alarm : Fault Exact) {now : ℝ} {b : Behavior Exact} (h : Ready now b)
    (hk : Known b) : Drives (Behavior.updateUnder (guard alarm)) now b := by
  have lengths : Lengths (0 < ·) := ⟨id, le_of_lt⟩
  intro stop hw stage
  obtain ⟨reply, hu, inTime, emits, known⟩ :=
    h.serves lengths (guard_lenient alarm) hk stop (sub_pos.2 hw) stage
  exact ⟨reply, hu, ⟨inTime.answer, emits⟩, known⟩

end ParticlePatterns
