import Mathlib
import ParticlePatterns.Proofs.Behavior.Translation

/-!
# Behaviors that draw nothing

A generator is still if it neither reads the random state nor changes it. Where all bodies are
still, another random state is a faithful translation: two updates that differ in the random
state alone come to the same, and each of them leaves its random state as it found it.
-/

set_option autoImplicit false

namespace ParticlePatterns

variable {α : Type}

def Gen.Still {T : Type} (g : Gen α T) : Prop :=
  ∀ sibling r r', g sibling r' = (g sibling r).map fun made => (made.1, r')

def Behavior.Still (b : Behavior α) : Prop :=
  b.Lawful Gen.Still ⊤

def Stage.seeded (s : Stage α) (r : Rng) : Stage α :=
  { s with rng := r }

def Reply.seeded (reply : Reply α) (r : Rng) : Reply α :=
  { reply with stage := reply.stage.seeded r }

namespace Translation

def reseed (r : Rng) : Translation α :=
  ⟨id, id, fun _ => r⟩

variable {r : Rng}

theorem supply_reseed (s : Supply α) : (reseed r).supply s = s := by
  cases s with
  | body => rfl
  | list rest => exact congrArg Supply.list (List.map_id rest)

theorem branches_reseed (bs : List (Behavior α × Option α)) : (reseed r).branches bs = bs :=
  List.map_id bs

theorem particle_reseed (p : Particle α) : (reseed r).particle p = p := by
  simp [particle, reseed]

theorem stage_reseed (s : Stage α) : (reseed r).stage s = s.seeded r := by
  have same : ((reseed r).particle : Particle α → Particle α) = id := funext particle_reseed
  rw [stage, same, Array.map_id]
  rfl

theorem reply_reseed (reply : Reply α) : (reseed r).reply reply = reply.seeded r := by
  rw [Translation.reply, stage_reseed]
  rfl

theorem reseed_faithful : (reseed r : Translation α).Faithful Gen.Still fun _ => False where
  leaf _ _ := rfl
  emit _ _ _ := rfl
  chain _ supply current _ _ := by
    rw [supply_reseed]
    simp [reseed]
  parallel _ branches := by
    rw [branches_reseed]
    rfl
  made _ still s r := Refines.iff_eq_map.2 (still s r _)

end Translation

/-- The random state makes no difference to a behavior that draws nothing. -/
theorem Behavior.Lawful.update_seeded [Scalar α] {depth : ℕ∞} {b : Behavior α}
    (h : b.Lawful Gen.Still depth) (w : Window α) (stage : Stage α) (r : Rng) :
    b.update w (stage.seeded r) = (b.update w stage).map (·.seeded r) := by
  have translated := h.translated (Translation.reseed_faithful (r := r)) w stage
  rw [Translation.stage_reseed] at translated
  rw [← funext Translation.reply_reseed]
  exact Refines.iff_eq_map.1 translated

end ParticlePatterns
