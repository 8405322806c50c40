import ParticlePatterns.Proofs.Behavior.Pauses
import ParticlePatterns.Proofs.Field.Termination

/-!
# Ticks of any length

A tick that is not positive, or undefined, is skipped; every other one is added to the ages of the
particles. Those of finite age may be driven by a tick of any length. What is left at an infinite
age, after an infinite tick or because the sum overflowed, has had a window without an end; and
since the distance of infinite times is undefined, it is refused every other window.
-/

set_option autoImplicit false

namespace ParticlePatterns

open Scalar (IsFinite)

variable {α : Type} [Scalar α] [Scalar.Rounded α]

open Scalar Compared Rounded

namespace Particle

variable {p : Particle α} {flaw : Fault α → Prop} {r : Rng}

/-- Wherever the next window ends, a particle of finite age is not refused. -/
theorem Drivable.fault_of_update (h : p.Drivable flaw) {b : Behavior α} (hb : p.behavior = some b)
    {stop : α} (later : p.lifeTime ≤ stop) {stage : Stage α} {fault : Fault α}
    (hu : b.update ⟨p.lifeTime, stop⟩ stage = .error fault) : flaw fault := by
  have outcome : EndsIn _ _ (b.update ⟨p.lifeTime, stop⟩ stage) := h.update_ends hb later stage
  rwa [hu] at outcome

theorem Lasting.age (h : p.Lasting flaw) :
    0 ≤ p.lifeTime ∧ (IsFinite p.lifeTime ∨ p.lifeTime = infinity) := by
  obtain drivable | forever := h
  · exact ⟨drivable.nonneg, .inl drivable.finite⟩
  · exact ⟨forever.1 ▸ Signed.zero_le_infinity, .inr forever.1⟩

end Particle

namespace Field

variable {f g : Field α} {flaw : Fault α → Prop} {time : α → Prop} {dt : α}

omit [Rounded α] in
theorem exists_forever (old : ¬f.FiniteAges) (h : ∀ p ∈ f.particles, p.Lasting flaw) :
    ∃ p ∈ f.particles, p.Forever := by
  by_contra none
  refine old fun p hp => ?_
  obtain drivable | forever := h p hp
  · exact drivable.finite
  · exact absurd ⟨p, hp, forever⟩ none

theorem Played.run_ne_ok (h : f.Played (fun gen => gen.Compiled ∧ gen.Sparing flaw) time)
    (old : ¬f.FiniteAges) (positive : 0 < dt) {steps : Nat} {s : Scan α} :
    Scan.run dt steps ⟨0, f.particles, f.rng⟩ ≠ .ok s := by
  have waiting : ∃ p ∈ Scan.pending ⟨0, f.particles, f.rng⟩, p.Forever := by
    simpa [Scan.pending_start] using exists_forever old h.lasting
  exact Scan.run_ne_ok (fun p forever r => ⟨_, forever.drive positive r⟩) steps waiting

/-- Among those who have been driven for ever somebody is refused, if nobody fails before. -/
theorem Played.fails_of_not_finiteAges
    (h : f.Played (fun gen => gen.Compiled ∧ gen.Sparing flaw) time) (old : ¬f.FiniteAges)
    (positive : 0 < dt) : ∃ steps fault, f.Fails dt steps fault ∧
      (flaw fault ∨ fault = .gap infinity infinity) := by
  have blame : ∀ (p : Particle α) r fault, p.Lasting flaw → p.drive dt r = .error fault →
      flaw fault ∨ fault = .gap infinity infinity := by
    rintro p r fault (drivable | forever) hd
    · exact .inl (drivable.fault_of_drive positive hd)
    · exact .inr (Except.error.inj (hd.symm.trans (forever.drive positive r)))
  obtain ⟨steps, ⟨s, hs, -⟩ | ⟨fault, failed, reason⟩⟩ := h.ends_of_faults (fun _ => .inl)
    fun steps fault => (Particle.Lasting.keeps positive).fault_of_run blame steps h.lasting
  · exact absurd hs (h.run_ne_ok old positive)
  · exact ⟨steps, fault, failed, reason⟩

/-- At the end of a tick everyone is older by its length, children than they were when they were
born. -/
theorem Played.ages_of_update
    (h : f.Played (fun gen => gen.Compiled ∧ gen.Sparing flaw) time) (positive : 0 < dt)
    {turns : Nat} (hu : f.updateWithin turns dt = .ok g) :
    f.FiniteAges ∧ ∀ q ∈ g.particles, ∃ age : α,
      (age = 0 ∨ ∃ p ∈ f.particles, p.lifeTime = age) ∧ q.lifeTime = age + dt := by
  obtain ⟨s, hs, rfl⟩ := (updateWithin_of_pos positive).1 hu
  have young : f.FiniteAges := by
    by_contra old
    exact h.run_ne_ok old positive hs
  let aged (age : α) : Prop := age = 0 ∨ ∃ p ∈ f.particles, p.lifeTime = age
  have settles : Scan.Settles dt (fun p => p.Drivable flaw ∧ aged p.lifeTime)
      fun q => ∃ age, aged age ∧ q.lifeTime = age + dt := by
    rintro p r leftover behavior stage ⟨drivable, age⟩ hd
    obtain ⟨-, born⟩ := drivable.of_drive positive hd
    exact ⟨fun _ => ⟨p.lifeTime, age, rfl⟩,
      fun q hq => ⟨(born q hq).drivable, .inl (born q hq).1⟩⟩
  refine ⟨young, settles.run turns ?_ (by simp [Scan.done_start]) hs⟩
  rw [Scan.pending_start]
  intro p hp
  have member := Array.mem_toList_iff.1 hp
  exact ⟨(h.lasting p member).drivable (young p member), .inr ⟨p, member, rfl⟩⟩

/-- A loop of pauses is left after an infinite tick. -/
theorem update_pauses (settings : Settings) :
    let f : Field α := (empty settings).add (.ofBehavior (.loop (Gen.constant .pause) .single))
    ∃ g p, f.update infinity = .ok g ∧ g.particles = #[p] ∧ p.Forever := by
  intro f
  let p : Particle α := .ofBehavior (.loop (Gen.constant .pause) .single)
  let stage : Stage α := ⟨p.sprite, f.rng, #[]⟩
  have whole : (0 : α) + infinity = infinity :=
    eq_infinity (le_add Signed.zero_le_zero Signed.zero_le_infinity).2
  obtain ⟨answer, hu, left, same⟩ : ∃ answer, (Behavior.loop (Gen.constant .pause) .single).update
      ⟨0, infinity⟩ stage = .ok answer ∧ answer.leftover = infinity - infinity ∧
      answer.stage = stage := ⟨_, Behavior.loop_pause_update .single stage, rfl, rfl⟩
  have drive : p.drive infinity f.rng =
      .ok (infinity - infinity, some answer.behavior, stage) := by
    refine bind_eq_ok.2 ⟨answer, ?_, by rw [left, same]; rfl⟩
    show Behavior.update _ ⟨0, 0 + infinity⟩ _ = _
    rw [whole]
    exact hu
  refine ⟨_, _, update_alone rfl zero_lt_infinity drive not_infinity_sub_infinity_nonneg rfl, rfl,
    whole, answer.behavior, rfl, ?_⟩
  rw [Behavior.timing_of_update hu]

theorem Played.finiteAges {programs : Program α → Prop} (h : f.Played (Gen.From programs) time)
    (closed : ∀ age d : α, 0 ≤ age → IsFinite age → 0 < d → time d → IsFinite (age + d)) :
    f.FiniteAges :=
  fun p hp => (Played.drivable (h.sparing fun _ => id) closed p hp).finite

/-- A tick that is not positive changes nothing, and what is of finite age may be driven by any
other one, be it infinite; so may each particle of finite age whatever the others are, wherever
its next window ends. A tick makes everyone older by its length. If the sum is infinite, every tick
behind it is at fault; as long as none is, no tick is. Doubles may be driven by any number of
ticks that are not too long. -/
theorem ticks_of_any_length {programs : Program α → Prop} {f : Field α}
    (h : f.Played (Gen.From programs) fun _ => True) (dt : α) :
    (¬0 < dt → ∀ turns, f.updateWithin turns dt = .ok f) ∧
    (∀ p ∈ f.particles, 0 ≤ p.lifeTime ∧ (IsFinite p.lifeTime ∨ p.lifeTime = infinity)) ∧
    (0 < dt → f.FiniteAges → f.Ends dt (Fault.OfExcess (Batch.Asked programs))) ∧
    (∀ p ∈ f.particles, IsFinite p.lifeTime → ∀ b, p.behavior = some b →
      ∀ stop, p.lifeTime ≤ stop → ∀ r fault,
      b.update ⟨p.lifeTime, stop⟩ ⟨p.sprite, r, #[]⟩ = .error fault →
      fault.OfExcess (Batch.Asked programs)) ∧
    (0 < dt → ¬f.FiniteAges → ∃ steps fault, f.Fails dt steps fault ∧
      (fault.OfExcess (Batch.Asked programs) ∨ fault = .gap infinity infinity)) ∧
    (0 < dt → ∀ turns g, f.updateWithin turns dt = .ok g → f.FiniteAges ∧
      ∀ q ∈ g.particles, ∃ age : α, (age = 0 ∨ ∃ p ∈ f.particles, p.lifeTime = age) ∧
        q.lifeTime = age + dt) ∧
    (∀ turns g, f.updateWithin turns infinity = .ok g →
      ∀ q ∈ g.particles, q.lifeTime = infinity) ∧
    (∀ time : α → Prop,
      (∀ age d : α, 0 ≤ age → IsFinite age → 0 < d → time d → IsFinite (age + d)) →
      f.Played (Gen.From programs) time → f.FiniteAges) ∧
    ∀ (programs : Program Float → Prop) (g : Field Float),
      g.Played (Gen.From programs) (· ≤ 1e291) → ∀ d, 0 < d →
      g.Ends d (Fault.OfExcess (Batch.Asked programs)) := by
  have sparing := h.sparing fun _ => id
  refine ⟨updateWithin_of_not_pos, fun p hp => (sparing.lasting p hp).age,
    fun positive young => sparing.ends_of_finiteAges young positive,
    fun p hp young b hb stop later r fault =>
      ((sparing.lasting p hp).drivable young).fault_of_update hb later,
    fun positive old => sparing.fails_of_not_finiteAges old positive,
    fun positive turns g hu => sparing.ages_of_update positive hu, fun turns g hu q hq => ?_,
    fun time closed finite => finite.finiteAges closed, fun programs g hg d positive => ?_⟩
  · obtain ⟨-, ages⟩ := sparing.ages_of_update zero_lt_infinity hu
    obtain ⟨age, known, older⟩ := ages q hq
    have nonneg : 0 ≤ age := by
      obtain rfl | ⟨p, hp, rfl⟩ := known
      · exact Signed.zero_le_zero
      · exact (sparing.lasting p hp).age.1
    rw [older]
    exact eq_infinity (le_add nonneg Signed.zero_le_infinity).2
  · have young : g.FiniteAges := hg.finiteAges fun age d _ finite later small =>
      Machine.isFinite_add finite (le_of_lt later) small
    exact (hg.sparing fun _ => id).ends_of_finiteAges young positive

/-- A loop of pauses may be driven by an infinite tick, and by nothing behind it. -/
theorem ticks_of_any_length_pauses :
    let p : Program Float := [.list [.symbol "loop", .symbol "nop"]]
    ∃ gen f g, p.compile = .ok gen ∧ (empty Settings.standard).spawn gen = .ok f ∧
      f.update infinity = .ok g ∧
      f.Played (Gen.From (· = p)) (fun _ => True) ∧ g.Played (Gen.From (· = p)) (fun _ => True) ∧
      (∀ turns, f.updateWithin turns 0 = .ok f) ∧ f.Played (Gen.From (· = p)) (· ≤ 1e291) ∧
      f.FiniteAges ∧ f.Ends infinity (Fault.OfExcess (Batch.Asked (· = p))) ∧ ¬g.FiniteAges ∧
      (∀ q ∈ g.particles, q.lifeTime = infinity) ∧
      ∃ steps fault, g.Fails 1 steps fault ∧
        (fault.OfExcess (Batch.Asked (· = p)) ∨ fault = .gap infinity infinity) := by
  intro p
  let gen : Gen Float (Behavior Float) := fun s r => .ok (.loop (Gen.constant .pause) s, r)
  let f : Field Float :=
    (empty Settings.standard).add (.ofBehavior (.loop (Gen.constant .pause) .single))
  have compiled : p.compile = .ok gen := rfl
  have spawned : (empty Settings.standard).spawn gen = .ok f := rfl
  obtain ⟨g, q, hg, alone, forever⟩ := update_pauses (α := Float) Settings.standard
  have small : f.Played (Gen.From (· = p)) (· ≤ 1e291) := .spawn .empty ⟨p, rfl, compiled⟩ spawned
  have played : f.Played (Gen.From (· = p)) fun _ => True :=
    small.mono (fun _ => id) fun _ _ => trivial
  have later : g.Played (Gen.From (· = p)) fun _ => True :=
    .update played trivial (f.update_eq_updateWithin infinity ▸ hg)
  obtain ⟨still, -⟩ := ticks_of_any_length played 0
  obtain ⟨-, -, ends, -, -, -, infinite, finite, -⟩ := ticks_of_any_length played infinity
  obtain ⟨-, -, -, -, fails, -⟩ := ticks_of_any_length later 1
  have young : f.FiniteAges := finite (· ≤ 1e291) (fun age d _ finite later small =>
    Machine.isFinite_add finite (le_of_lt later) small) small
  have old : ¬g.FiniteAges := fun finite => forever.not_isFinite (finite q (by simp [alone]))
  exact ⟨gen, f, g, compiled, spawned, hg, played, later, still lt_irrefl, small, young,
    ends zero_lt_infinity young, old, infinite _ g hg, fails zero_lt_one old⟩

/-- After an infinite tick of a loop of pauses the next tick is at fault. -/
theorem refused_after_infinity :
    let p : Program Float := [.list [.symbol "loop", .symbol "nop"]]
    ∃ gen f g, p.compile = .ok gen ∧ (empty Settings.standard).spawn gen = .ok f ∧
      f.update infinity = .ok g ∧ g.update 1 = .error (.gap infinity infinity) := by
  intro p
  let gen : Gen Float (Behavior Float) := fun s r => .ok (.loop (Gen.constant .pause) s, r)
  have compiled : p.compile = .ok gen := rfl
  obtain ⟨g, q, hg, alone, forever⟩ := update_pauses (α := Float) Settings.standard
  refine ⟨gen, _, g, compiled, rfl, hg, ?_⟩
  obtain ⟨n, enough⟩ : ∃ n, Scan.turnLimit = n + 1 := ⟨1 <<< 62 - 1, by decide⟩
  have failed : Scan.run 1 Scan.turnLimit ⟨0, g.particles, g.rng⟩ =
      .error (.gap infinity infinity) := by
    rw [enough, Scan.run_error (Scan.step_error ?_ (forever.drive zero_lt_one g.rng))]
    rw [alone]
    rfl
  unfold Field.update
  refine (if_pos Rounded.zero_lt_one).trans ?_
  rw [failed]
  rfl

end Field

end ParticlePatterns
