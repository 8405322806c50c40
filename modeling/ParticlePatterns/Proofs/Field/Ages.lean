import ParticlePatterns.Proofs.Behavior.Poised
import ParticlePatterns.Proofs.Field.Turns

/-!
# Particles of any age

A particle of finite age may be driven by any tick, an empty or an infinite one included. If the
tick takes it to a finite age it may be driven on. One that is left at an infinite age has had a
window without an end, and since the distance of infinite times is undefined it is refused every
other one.
-/

set_option autoImplicit false

namespace ParticlePatterns

open Scalar (IsFinite)

variable {α : Type} [Scalar α]

namespace Particle

structure Drivable (flaw : Fault α → Prop) (p : Particle α) : Prop where
  finite : IsFinite p.lifeTime
  nonneg : 0 ≤ p.lifeTime
  poised : ∀ b, p.behavior = some b → Poised flaw p.lifeTime b

def Forever (p : Particle α) : Prop :=
  p.lifeTime = Scalar.infinity ∧
    ∃ b, p.behavior = some b ∧ b.timing.lastStop = some Scalar.infinity

variable [Scalar.Rounded α] {p : Particle α} {flaw : Fault α → Prop} {dt : α} {r : Rng}

open Scalar Compared Rounded

theorem Fresh.drivable (h : p.Fresh flaw) : p.Drivable flaw := by
  obtain ⟨age, b, hb, poised⟩ := h
  refine ⟨?_, ?_, fun c hc => ?_⟩
  · rw [age]
    exact .zero
  · rw [age]
    exact Signed.zero_le_zero
  · obtain rfl : b = c := Option.some.inj (hb.symm.trans hc)
    rw [age]
    exact poised

omit [Rounded α] in
theorem fresh_ofBehavior {b : Behavior α} (h : b.Pristine flaw) : (ofBehavior b).Fresh flaw :=
  ⟨rfl, b, rfl, h.poised⟩

/-- No window of a particle of finite age is refused, wherever it ends. -/
theorem Drivable.update_ends (h : p.Drivable flaw) {b : Behavior α} (hb : p.behavior = some b)
    {stop : α} (later : p.lifeTime ≤ stop) (stage : Stage α) :
    EndsIn (Reply.Timely flaw stop stage) flaw (b.update ⟨p.lifeTime, stop⟩ stage) :=
  (h.poised b hb).obliges h.finite h.nonneg stop stage later

theorem Drivable.later (h : p.Drivable flaw) (positive : 0 < dt) :
    p.lifeTime ≤ p.lifeTime + dt :=
  (le_add h.nonneg (le_of_lt positive)).1

theorem Drivable.drive_ends (h : p.Drivable flaw) (positive : 0 < dt) (r : Rng) :
    EndsIn (fun turn => (¬0 ≤ turn.1 → IsFinite (p.lifeTime + dt) → ∀ sprite,
        (p.moved dt sprite turn.2.1).Drivable flaw) ∧ ∀ q ∈ turn.2.2.emitted, q.Fresh flaw)
      flaw (p.drive dt r) := by
  unfold drive
  split
  · exact ⟨fun goes => absurd Signed.zero_le_zero goes, by simp⟩
  next b hb =>
    refine (h.update_ends hb (h.later positive) ⟨p.sprite, r, #[]⟩).bind fun reply timely => ?_
    refine ⟨fun goes finite sprite => ?_, fun q hq => ?_⟩
    · obtain ⟨-, poised⟩ := (timely.finite finite).resolve_right goes
      refine ⟨finite, le_trans h.nonneg (h.later positive), fun c hc => ?_⟩
      obtain rfl : reply.behavior = c := Option.some.inj hc
      exact poised
    · obtain hq | fresh := timely.gains q hq
      · simp at hq
      · exact fresh

theorem Drivable.fault_of_drive (h : p.Drivable flaw) (positive : 0 < dt) {fault : Fault α}
    (hd : p.drive dt r = .error fault) : flaw fault := by
  have outcome : EndsIn _ _ (p.drive dt r) := h.drive_ends positive r
  rwa [hd] at outcome

theorem Drivable.of_drive (h : p.Drivable flaw) (positive : 0 < dt) {leftover : α}
    {behavior : Option (Behavior α)} {stage : Stage α}
    (hd : p.drive dt r = .ok (leftover, behavior, stage)) :
    (¬0 ≤ leftover → IsFinite (p.lifeTime + dt) → ∀ sprite,
      (p.moved dt sprite behavior).Drivable flaw) ∧ ∀ q ∈ stage.emitted, q.Fresh flaw := by
  have outcome : EndsIn _ _ (p.drive dt r) := h.drive_ends positive r
  rwa [hd] at outcome

theorem Forever.drive (h : p.Forever) (positive : 0 < dt) (r : Rng) :
    p.drive dt r = .error (.gap Scalar.infinity Scalar.infinity) := by
  obtain ⟨age, b, hb, last⟩ := h
  have later := (le_add Signed.zero_le_infinity (le_of_lt positive)).1
  have refused : b.timing.enter ⟨infinity, infinity⟩ = .error (.gap infinity infinity) := by
    simp [Timing.enter, (defined later).1, last, Timing.not_meets_infinity]
  rw [Particle.drive, hb, age, eq_infinity later]
  show b.update _ _ >>= _ = _
  rw [Behavior.update_error_of_enter refused]
  rfl

/-- What goes on has had its window, whatever that was. -/
theorem lastStop_of_drive {leftover : α} {behavior : Option (Behavior α)} {stage : Stage α}
    (hd : p.drive dt r = .ok (leftover, behavior, stage)) (goes : ¬0 ≤ leftover) :
    ∃ b, behavior = some b ∧ b.timing.lastStop = some (p.lifeTime + dt) := by
  unfold Particle.drive at hd
  split at hd
  · cases hd
    exact absurd Signed.zero_le_zero goes
  · obtain ⟨reply, hu, hd⟩ := bind_eq_ok.1 hd
    cases hd
    exact ⟨reply.behavior, rfl, by rw [Behavior.timing_of_update hu]⟩

def Lasting (flaw : Fault α → Prop) (p : Particle α) : Prop :=
  p.Drivable flaw ∨ p.Forever

theorem Forever.not_isFinite (h : p.Forever) : ¬IsFinite p.lifeTime :=
  h.1 ▸ not_isFinite_infinity

theorem Lasting.drivable (h : p.Lasting flaw) (finite : IsFinite p.lifeTime) : p.Drivable flaw :=
  h.resolve_right fun forever => forever.not_isFinite finite

/-- Where a turn ends at an infinite age it was the last one, else others may follow. -/
theorem Drivable.settles (positive : 0 < dt) : Scan.Settles dt (Drivable flaw) (Lasting flaw) := by
  intro p r leftover behavior stage drivable hd
  obtain ⟨goes, born⟩ := drivable.of_drive positive hd
  refine ⟨fun negative => ?_, fun q hq => (born q hq).drivable⟩
  obtain finite | infinite :=
    isFinite_or_eq_infinity (le_trans drivable.nonneg (drivable.later positive))
  · exact .inl (goes negative finite _)
  · exact .inr ⟨infinite, infinite ▸ lastStop_of_drive hd negative⟩

theorem Lasting.keeps (positive : 0 < dt) : Scan.Keeps dt (Lasting flaw) := by
  rintro p r leftover behavior stage (drivable | forever) hd
  · obtain ⟨goes, born⟩ := Drivable.settles positive p r _ _ _ drivable hd
    exact ⟨goes, fun q hq => .inl (born q hq)⟩
  · cases (forever.drive positive r).symm.trans hd

end Particle

end ParticlePatterns
