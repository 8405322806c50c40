import ParticlePatterns.Behavior.Update
import ParticlePatterns.Field.Settings

/-!
# Fields

A field owns its particles and the random state they draw from. A tick drives
every particle once, also those that are emitted during the tick. A complete
particle is replaced by the last one, which then has its turn in its place.
-/

set_option autoImplicit false

namespace ParticlePatterns

structure Field (α : Type) where
  particles : Array (Particle α)
  rng : Rng
  settings : Settings

namespace Field

variable {α : Type}

def empty (settings : Settings) : Field α :=
  ⟨#[], Rng.ofSeed settings.seed, settings⟩

def ofSettings (settings : Settings) : Except (Fault α) (Field α) :=
  if settings.HasRoom then .ok (empty settings) else .error .noRoom

def add (f : Field α) (p : Particle α) : Field α :=
  { f with particles := f.particles.push p }

def clear (f : Field α) : Field α :=
  { f with particles := #[] }

def size (f : Field α) : Nat :=
  f.particles.size

@[simp] theorem size_empty (settings : Settings) : (empty settings : Field α).size = 0 := rfl

theorem ofSettings_eq_ok_iff (settings : Settings) (f : Field α) :
    ofSettings settings = .ok f ↔ settings.HasRoom ∧ f = empty settings := by
  unfold ofSettings
  split <;> simp_all [eq_comm]

@[simp] theorem size_add (f : Field α) (p : Particle α) : (f.add p).size = f.size + 1 := by
  simp [size, add]

@[simp] theorem size_clear (f : Field α) : f.clear.size = 0 := rfl

variable [Scalar α]

def spawn (f : Field α) (g : Gen α (Behavior α)) : Except (Fault α) (Field α) := do
  let (b, rng) ← g .single f.rng
  pure ({ f with rng }.add (.ofBehavior b))

end Field

namespace Particle

variable {α : Type} [Scalar α]

def drive (p : Particle α) (dt : α) (r : Rng) :
    Except (Fault α) (α × Option (Behavior α) × Stage α) :=
  match p.behavior with
  | none => .ok (0, none, ⟨p.sprite, r, #[]⟩)
  | some b => do
      let answer ← b.update ⟨p.lifeTime, p.lifeTime + dt⟩ ⟨p.sprite, r, #[]⟩
      pure (answer.leftover, some answer.behavior, answer.stage)

def moved (p : Particle α) (dt : α) (sprite : Sprite α) (behavior : Option (Behavior α)) :
    Particle α :=
  ⟨sprite.translate ⟨0, 0, sprite.speed * dt⟩, p.lifeTime + dt, behavior⟩

end Particle

def replaceByLast {T : Type} (xs : Array T) (i : Nat) : Array T :=
  (xs.swapIfInBounds i (xs.size - 1)).pop

@[simp] theorem size_replaceByLast {T : Type} (xs : Array T) (i : Nat) :
    (replaceByLast xs i).size = xs.size - 1 := by
  simp [replaceByLast]

structure Scan (α : Type) where
  index : Nat
  particles : Array (Particle α)
  rng : Rng

inductive Turn (α : Type)
  | over (final : Scan α)
  | more (next : Scan α)

namespace Scan

variable {α : Type} [Scalar α]

def step (dt : α) : Scan α → Except (Fault α) (Turn α)
  | ⟨index, particles, rng⟩ =>
    match particles[index]? with
    | none => .ok (.over ⟨index, particles, rng⟩)
    | some p => do
        let (leftover, behavior, stage) ← p.drive dt rng
        let particles := particles ++ stage.emitted
        if 0 ≤ leftover then
          pure (.more ⟨index, replaceByLast particles index, stage.rng⟩)
        else
          let p := p.moved dt stage.sprite behavior
          pure (.more ⟨index + 1, particles.setIfInBounds index p, stage.rng⟩)

def run (dt : α) : Nat → Scan α → Except (Fault α) (Scan α)
  | 0, _ => .error .unfinished
  | fuel + 1, s => do
      match ← s.step dt with
      | .over final => pure final
      | .more next => run dt fuel next

/-- More turns than there is room for particles. -/
def turnLimit : Nat := 1 <<< 62

end Scan

namespace Field

variable {α : Type} [Scalar α]

def update (f : Field α) (dt : α) : Except (Fault α) (Field α) :=
  if 0 < dt then do
    let s ← Scan.run dt Scan.turnLimit ⟨0, f.particles, f.rng⟩
    pure { f with particles := s.particles, rng := s.rng }
  else .ok f

end Field

end ParticlePatterns
