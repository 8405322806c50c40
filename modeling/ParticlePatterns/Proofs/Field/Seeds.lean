import Mathlib
import ParticlePatterns.Proofs.Field.Turns
import ParticlePatterns.Proofs.Pattern.Bodies

/-!
# The seed of a field

Where nothing is drawn at random the seed of a field makes no difference: whatever is done to
two fields that differ in their seeds, they hold the same particles, and each of them keeps the
random state it started with. A program draws nothing unless one of three names is mentioned in
it.
-/

set_option autoImplicit false

namespace ParticlePatterns

variable {α : Type}

def Scan.seeded (s : Scan α) (r : Rng) : Scan α :=
  { s with rng := r }

def Turn.seeded (turn : Turn α) (r : Rng) : Turn α :=
  match turn with
  | .over final => .over (final.seeded r)
  | .more next => .more (next.seeded r)

def Field.resettled (f : Field α) (settings : Settings) : Field α :=
  ⟨f.particles, .ofSeed settings.seed, settings⟩

inductive Act (α : Type)
  | spawn
  | tick (dt : α)

variable [Scalar α]

namespace Field

def perform (gen : Gen α (Behavior α)) (f : Field α) : Act α → Except (Fault α) (Field α)
  | .spawn => f.spawn gen
  | .tick dt => f.update dt

def play (gen : Gen α (Behavior α)) : List (Act α) → Field α → Except (Fault α) (Field α)
  | [], f => .ok f
  | act :: rest, f => f.perform gen act >>= play gen rest

end Field

namespace Scan

variable {dt : α} {s : Scan α}

theorem step_seeded (h : ∀ p ∈ s.particles, p.Still) (r : Rng) :
    (s.seeded r).step dt = (s.step dt).map (·.seeded r) := by
  obtain ⟨index, particles, rng⟩ := s
  simp only [seeded, step]
  cases hp : particles[index]? with
  | none => rfl
  | some p =>
    refine bind_eq_map ((h p (Array.mem_of_getElem? hp)).drive_seeded rng r) fun turn _ => ?_
    by_cases complete : 0 ≤ turn.1
    · simp only [complete, if_true]
      rfl
    · simp only [complete, if_false]
      rfl

theorem run_seeded (r : Rng) (turns : Nat) : ∀ {s : Scan α}, (∀ p ∈ s.particles, p.Still) →
    run dt turns (s.seeded r) = (run dt turns s).map (·.seeded r) := by
  induction turns with
  | zero => exact fun _ => rfl
  | succ turns ih =>
    intro s h
    refine bind_eq_map (step_seeded h r) fun turn hstep => ?_
    match turn with
    | .over final => rfl
    | .more next => exact ih (Particle.Still.keeps.step h hstep)

end Scan

namespace Field

variable {f g : Field α} {gen : Gen α (Behavior α)} {act : Act α}

theorem Still.update_resettled (h : f.Still) (dt : α) (settings : Settings) :
    (f.resettled settings).update dt = (f.update dt).map (·.resettled settings) := by
  unfold update
  by_cases forward : 0 < dt
  · rw [if_pos forward, if_pos forward]
    exact bind_eq_map (Scan.run_seeded (.ofSeed settings.seed) Scan.turnLimit
      (s := ⟨0, f.particles, f.rng⟩) h) fun _ _ => rfl
  · rw [if_neg forward, if_neg forward]
    rfl

theorem spawn_resettled (f : Field α) (hg : gen.Still) (settings : Settings) :
    (f.resettled settings).spawn gen = (f.spawn gen).map (·.resettled settings) :=
  bind_eq_map (hg .single f.rng (.ofSeed settings.seed)) fun _ _ => rfl

theorem Still.perform_resettled (h : f.Still) (hg : gen.Still) (settings : Settings) :
    (f.resettled settings).perform gen act =
      (f.perform gen act).map (·.resettled settings) := by
  cases act with
  | spawn => exact spawn_resettled f hg settings
  | tick dt => exact h.update_resettled dt settings

theorem Still.perform (h : f.Still) (hb : ∀ b, gen.Gives b → b.Still)
    (hp : f.perform gen act = .ok g) : g.Still := by
  cases act with
  | spawn => exact spawn_keeps h (fun b made c hc => Option.some.inj hc ▸ hb b made) hp
  | tick dt => exact update_keeps h Particle.Still.keeps hp

theorem Still.play_resettled (hg : gen.Still) (hb : ∀ b, gen.Gives b → b.Still)
    (settings : Settings) (acts : List (Act α)) : ∀ {f : Field α}, f.Still →
      (f.resettled settings).play gen acts = (f.play gen acts).map (·.resettled settings) := by
  induction acts with
  | nil => exact fun _ => rfl
  | cons act rest ih =>
    exact fun h => bind_eq_map (h.perform_resettled hg settings) fun _ hp => ih (h.perform hb hp)

end Field

namespace Term

variable {name : String}

omit [Scalar α] in
@[simp] theorem mentions_symbol {symbol : String} :
    (Term.symbol symbol : Term α).Mentions name ↔ symbol = name := by
  constructor
  · rintro ⟨⟩
    rfl
  · rintro rfl
    exact .here

omit [Scalar α] in
@[simp] theorem mentions_number {value : α} : ¬(Term.number value).Mentions name := by
  rintro ⟨⟩

omit [Scalar α] in
@[simp] theorem mentions_list {ts : List (Term α)} :
    (Term.list ts).Mentions name ↔ ∃ t ∈ ts, t.Mentions name := by
  constructor
  · rintro ⟨⟩
    exact ⟨_, ‹_›, ‹_›⟩
  · rintro ⟨t, ht, inner⟩
    exact .inside ht inner

end Term

open Exact (real)

namespace Field

/-- A program that mentions nothing random comes to the same after any acts, whatever the seed
of the field it is played in: to the same particles in the same order, or to the same fault.
The random state is the one that the seed has set. -/
theorem seeds_agree {p : Program α} {gen : Gen α (Behavior α)} (h : p.compile = .ok gen)
    (quiet : ∀ name ∈ ["random-choice", "random-range", "random-angle"],
      ¬(Term.list p).Mentions name) (acts : List (Act α)) :
    ∃ outcome : Except (Fault α) (Array (Particle α)), ∀ settings : Settings,
      (empty settings).play gen acts =
        outcome.map fun particles => ⟨particles, .ofSeed settings.seed, settings⟩ := by
  have makes := Program.compile_makes Gen.lawlike_still
    (fun ⟨name, listed, mentioned⟩ => absurd mentioned (quiet name listed)) h
  have still : ∀ b, gen.Gives b → b.Still := fun b hb => (makes.gives b hb).mono le_top
  let plain : Field α := empty Settings.standard
  have start : plain.Still := by simp [Still, plain, empty]
  refine ⟨(plain.play gen acts).map Field.particles, fun settings => ?_⟩
  have same : (empty settings).play gen acts = _ :=
    Still.play_resettled makes.keeps still settings acts start
  rw [same]
  cases plain.play gen acts <;> rfl

/-- Children with lifespans of their own, in all fields of whatever seed. -/
theorem seeds_agree_burst :
    let lifespans : Term Exact := .list [.symbol "each-choice", .number (real 1), .number (real 2)]
    let p : Program Exact := [.list [.symbol "emit", .number (real 1), .number (real 2),
      .number (real 1), .list [lifespans, .symbol "nop"]]]
    ∃ gen, p.compile = .ok gen ∧ (∀ name ∈ ["random-choice", "random-range", "random-angle"],
      ¬(Term.list p).Mentions name) ∧ ∀ acts : List (Act Exact),
        ∃ outcome : Except (Fault Exact) (Array (Particle Exact)), ∀ settings : Settings,
          (empty settings).play gen acts =
            outcome.map fun particles => ⟨particles, .ofSeed settings.seed, settings⟩ := by
  intro lifespans p
  obtain ⟨gen, h⟩ : ∃ gen, p.compile = .ok gen := ⟨_, rfl⟩
  have quiet : ∀ name ∈ ["random-choice", "random-range", "random-angle"],
      ¬(Term.list p).Mentions name := by
    simp [p, lifespans]
  exact ⟨gen, h, quiet, seeds_agree h quiet⟩

end Field

end ParticlePatterns
