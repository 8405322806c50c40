import ParticlePatterns.Proofs.Behavior.Rigid
import ParticlePatterns.Proofs.Field.Termination

/-!
# The orientation of particles

A particle starts out as a turn, only rotations change where it faces, and children face where
their parents do. All numbers in a program are finite, since others cannot be written, and so are
those that are varied between them. So in a field that is filled by programs and driven by finite
times all orientations stay turns, and motion keeps lengths.
-/

set_option autoImplicit false

namespace ParticlePatterns

open Exact (real)
open Scalar (IsFinite)

section Numbers

theorem Gen.isFinite_share (s : Sibling) : IsFinite (share s : Exact) := by
  by_cases alone : s.total ≤ 1
  · rw [share, if_pos alone, Exact.one_eq_real, Exact.ofNat_eq_real,
      Exact.real_div_real two_ne_zero]
    exact Exact.isFinite_real _
  · rw [share_eq (by omega)]
    exact Exact.isFinite_real _

theorem Gen.isFinite_bearing (s : Sibling) : IsFinite (bearing s : Exact) := by
  unfold bearing
  by_cases empty : s.total = 0
  · rw [if_pos empty]
    simp
  · have degrees : IsFinite (360 * Scalar.ofNat s.index / Scalar.ofNat s.total : Exact) := by
      show IsFinite (real (360 * s.index) / real s.total)
      rw [Exact.real_div_real (Nat.cast_ne_zero.2 empty)]
      exact Exact.isFinite_real _
    simp only [if_neg empty]
    split
    · exact degrees.add (by simp)
    · exact degrees

theorem Rng.isFinite_unit (r : Rng) : IsFinite (r.unit : Exact × Rng).1 := by
  obtain ⟨t, -, same⟩ := r.isRatio_unit
  exact same ▸ Exact.isFinite_real t

/-- What is varied between finite numbers is finite. -/
theorem Varied.isFinite {written : Exact → Prop} {x : Exact} (h : Varied written x)
    (hw : ∀ y, written y → IsFinite y) : IsFinite x := by
  induction h with
  | written given => exact hw _ given
  | spread s _ _ iha ihb => exact iha.lerp ihb (Gen.isFinite_share s)
  | drawn r _ _ iha ihb => exact iha.lerp ihb r.isFinite_unit
  | bearing s => exact Gen.isFinite_bearing s
  | turn r =>
    have whole : IsFinite (360 - 0 : Exact) := by simp
    have start : IsFinite (0 : Exact) := by simp
    exact start.add (r.isFinite_unit.mul whole)

end Numbers

def Gen.FinitelyCompiled (g : Gen Exact (Behavior Exact)) : Prop :=
  ∃ p : Program Exact, p.compile = .ok g ∧ ∀ x ∈ p.numbers, IsFinite x

theorem Gen.FinitelyCompiled.rigid {g : Gen Exact (Behavior Exact)} (h : g.FinitelyCompiled)
    {b : Behavior Exact} (made : g.Gives b) : b.Rigid := by
  obtain ⟨p, compiled, finite⟩ := h
  have composed := (Program.compile_only compiled).gives b made
  exact (composed.mono fun x varied => varied.isFinite finite).rigid

namespace Particle.Rigid

variable {p : Particle Exact}

theorem ofBehavior {b : Behavior Exact} (h : b.Rigid) : (Particle.ofBehavior b).Rigid where
  age := by simp [Particle.ofBehavior, idle]
  turn := Quaternion.isTurn_identity
  behavior _ same := Option.some.inj same ▸ h

theorem keeps (d : ℝ) : Scan.Keeps (real d) Particle.Rigid := by
  intro p r leftover behavior stage rigid drive
  have later := rigid.age.add (Exact.isFinite_real d)
  unfold Particle.drive at drive
  split at drive
  · cases drive
    exact ⟨fun goes => absurd (by simp) goes, by simp⟩
  next b hb =>
    obtain ⟨reply, answered, drive⟩ := bind_eq_ok.1 drive
    cases drive
    have start : Stage.Rigid ⟨p.sprite, r, #[]⟩ := ⟨rigid.turn, by simp⟩
    obtain ⟨-, kept, after⟩ :=
      (rigid.behavior b hb).steers.2 _ _ _ ⟨rigid.age, later⟩ start answered
    exact ⟨fun _ => ⟨later, after.turn, fun c same => Option.some.inj same ▸ kept⟩, after.emitted⟩

end Particle.Rigid

namespace Field

variable {f : Field Exact}

theorem Played.rigid (h : f.Played Gen.FinitelyCompiled (· ≠ Scalar.infinity)) :
    ∀ p ∈ f.particles, p.Rigid := by
  refine h.forall_particles (fun gen compiled b made => .ofBehavior (compiled.rigid made))
    fun dt finite positive => ?_
  have admitted : IsFinite dt :=
    (Scalar.isFinite_or_eq_infinity (Scalar.le_of_lt positive)).resolve_right finite
  obtain ⟨d, rfl⟩ := Exact.isFinite_iff.1 admitted
  exact Particle.Rigid.keeps d

/-- A sprite that is a turn is turned by turns whatever the angles are, so that its orientation is
divided by 1 and is a turn again. Nothing else changes it: no other effect, no motion, and a child
faces where its parent does. So every particle of a field is a turn, however the field is filled
and driven, and every vector moves it by as much as the vector is long. -/
theorem orientation_stays_unit :
    (∀ s : Sprite Exact, s.rotation.IsTurn → ∀ a b c : ℝ,
      let degrees : Vec3 Exact := ⟨real a, real b, real c⟩
      (Quaternion.ofDegrees degrees).norm = 1 ∧
      (s.rotation.mul (.ofDegrees degrees)).norm = 1 ∧
      (s.rotate degrees).rotation = s.rotation.mul (.ofDegrees degrees) ∧
      (s.rotate degrees).rotation.IsTurn) ∧
    (∀ e : Effect Exact, (∀ degrees, e ≠ .rotate degrees) → ∀ t first w s,
      (e.apply t first w s).2.rotation = s.rotation) ∧
    (∀ (p : Particle Exact) dt sprite behavior,
      (p.moved dt sprite behavior).sprite.rotation = sprite.rotation) ∧
    (∀ (parent : Sprite Exact) b, (Particle.spawnedBy parent b).sprite.rotation =
      parent.rotation) ∧
    ∀ f : Field Exact, f.Played Gen.FinitelyCompiled (· ≠ Scalar.infinity) →
      ∀ p ∈ f.particles, p.sprite.rotation.IsTurn ∧ p.sprite.rotation.norm = 1 ∧
        ∀ x y z : ℝ, ∃ X Y Z : ℝ,
          (p.sprite.translate ⟨real x, real y, real z⟩).position =
            p.sprite.position.add ⟨real X, real Y, real Z⟩ ∧
          (⟨real X, real Y, real Z⟩ : Vec3 Exact).length =
            (⟨real x, real y, real z⟩ : Vec3 Exact).length := by
  refine ⟨fun s turned a b c => ?_, fun e other => e.rotation_apply other, fun _ _ _ _ => rfl,
    fun _ _ => rfl, fun f played p hp => ?_⟩
  · have turn := Quaternion.isTurn_ofDegrees a b c
    exact ⟨turn.norm, (turned.mul turn).norm, Sprite.rotation_rotate turned a b c,
      Sprite.isTurn_rotate turned a b c⟩
  · have turned := (played.rigid p hp).turn
    exact ⟨turned, turned.norm, fun x y z => Sprite.exists_translate turned x y z⟩

/-- A rotation about all axes in a field, after a quarter of its lifespan. -/
theorem orientation_stays_unit_quarter :
    let degrees : Vec3 Exact := ⟨real 180, real 90, real 45⟩
    let program : Program Exact := [.list [.number (real 4), .symbol "rotate", .number degrees.x,
      .number degrees.y, .number degrees.z]]
    ∃ gen f g p, program.compile = .ok gen ∧ (empty Settings.standard).spawn gen = .ok f ∧
      f.update (real 1) = .ok g ∧ g.Played Gen.FinitelyCompiled (· ≠ Scalar.infinity) ∧
      g.particles = #[p] ∧ p.sprite.rotation.norm = 1 ∧
      p.sprite.rotation.IsTurn ∧ (p.sprite.rotation.mul (.ofDegrees degrees)).norm = 1 := by
  intro degrees program
  let gen : Gen Exact (Behavior Exact) := Meaning.lasting (Gen.constant (real 4))
    (Operator.ofVector .rotate (Gen.constant degrees.x) (Gen.constant degrees.y)
      (Gen.constant degrees.z))
  let timing : Timing Exact := ⟨.linear, real 4, none⟩
  let b : Behavior Exact := .leaf timing (.rotate degrees)
  have compiled : program.compile = .ok gen := rfl
  have set : (Behavior.rotate degrees).setLifespan (Scalar.max (real 4) 0) = .ok b := by
    simp [Behavior.setLifespan, Timing.setLifespan, Timing.isRunning, Behavior.timing,
      Behavior.rotate, Behavior.ofEffect, Timing.instant, Timing.ofLifespan, b, timing, Except.map,
      Behavior.withTiming]
  have made (r : Rng) : gen .single r = .ok (b, r) := by
    show ((Behavior.rotate degrees).setLifespan (Scalar.max (real 4) 0)).map (·, r) = _
    rw [set]
    rfl
  let f := (empty Settings.standard).add (.ofBehavior b)
  have spawned : (empty Settings.standard).spawn gen = .ok f := bind_eq_ok.2 ⟨_, made _, rfl⟩
  have awaits : timing.Awaits 0 := .inl ⟨rfl, rfl⟩
  let stage : Stage Exact := ⟨.initial, f.rng, #[]⟩
  have answered := awaits.update_leaf zero_le_one (.rotate degrees) stage
  have goes : ¬0 ≤ timing.verdict ⟨real 0, real 1⟩ := by simp [Timing.verdict, timing]
  have window : (⟨0, 0 + real 1⟩ : Window Exact) = ⟨real 0, real 1⟩ := by simp
  let sprite := stage.sprite.rotate (degrees.scale (timing.delta ⟨real 0, real 1⟩))
  have drive : (Particle.ofBehavior b).drive (real 1) f.rng =
      .ok (timing.verdict ⟨real 0, real 1⟩,
        some (.leaf ⟨.linear, real 4, some (real 1)⟩ (.rotate degrees)), ⟨sprite, f.rng, #[]⟩) := by
    show b.update ⟨0, 0 + real 1⟩ stage >>= _ = _
    rw [window, answered]
    rfl
  have updated := update_alone (f := f) rfl (by simp) drive goes rfl
  have finite : ∀ x ∈ program.numbers, IsFinite x := by
    simp [program, degrees, Program.numbers, Term.leavesAll, Term.leaves]
  have filled : f.Played Gen.FinitelyCompiled (· ≠ Scalar.infinity) :=
    .spawn .empty ⟨program, compiled, finite⟩ spawned
  have tick : real 1 ≠ Scalar.infinity := by rintro ⟨⟩
  have played := Played.update filled tick (update_eq_updateWithin f _ ▸ updated)
  obtain ⟨turned, unit, -⟩ := orientation_stays_unit.2.2.2.2 _ played _ (Array.mem_singleton_self _)
  exact ⟨gen, f, _, _, compiled, spawned, updated, played, rfl, unit, turned,
    (orientation_stays_unit.1 _ turned 180 90 45).2.1⟩

end Field

end ParticlePatterns
