import ParticlePatterns.Proofs.Behavior.Guarded
import ParticlePatterns.Proofs.Field.Turns

/-!
# The window protocol in a field

However a field is filled and driven, every behavior in it keeps to the window protocol:
those added to it, their parts, and the children that are emitted while it is driven.
-/

set_option autoImplicit false

namespace ParticlePatterns

open Exact (real)

def Particle.Sound (p : Particle Exact) : Prop :=
  ∃ now, p.lifeTime = real now ∧ ∀ b, p.behavior = some b → Ready now b ∧ Known b

theorem Newborn.sound {p : Particle Exact} (h : Newborn p) : p.Sound := by
  obtain ⟨h0, b, hb, built⟩ := h
  refine ⟨0, by rw [h0, Exact.zero_eq_real], fun c hc => ?_⟩
  rw [hb] at hc
  cases hc
  exact ⟨built.ready, [], .start built⟩

theorem Particle.newborn_ofBehavior {b : Behavior Exact} (h : Built b) :
    Newborn (.ofBehavior b) :=
  ⟨rfl, b, rfl, h⟩

theorem mem_of_mem_replaceByLast {T : Type} {xs : Array T} {i : Nat} {x : T}
    (h : x ∈ replaceByLast xs i) : x ∈ xs := by
  have swapped : x ∈ xs.swapIfInBounds i (xs.size - 1) := by
    rw [replaceByLast, ← Array.mem_toList_iff, Array.toList_pop] at h
    exact Array.mem_toList_iff.1 (List.mem_of_mem_dropLast h)
  rw [Array.swapIfInBounds_def] at swapped
  split at swapped
  · split at swapped
    · exact (Array.swap_perm _ _).mem_iff.1 swapped
    · exact swapped
  · exact swapped

namespace Particle.Sound

variable {p : Particle Exact} {d : ℝ}

theorem update (h : p.Sound) (hd : 0 < d) (alarm : Fault Exact) {b : Behavior Exact}
    (hb : p.behavior = some b) (stage : Stage Exact) : ∃ reply,
    b.updateUnder (guard alarm) ⟨p.lifeTime, p.lifeTime + real d⟩ stage = .ok reply ∧
    b.update ⟨p.lifeTime, p.lifeTime + real d⟩ stage = .ok reply ∧
    Emits stage reply.stage ∧ (¬0 ≤ reply.leftover → ∀ sprite,
      (p.moved (real d) sprite (some reply.behavior)).Sound) := by
  obtain ⟨now, hn, ready⟩ := h
  obtain ⟨ready, known⟩ := ready b hb
  have later : now < now + d := by linarith
  obtain ⟨reply, hr, ⟨answer, emits⟩, hk⟩ := ready.drives alarm known _ later stage
  rw [hn, Exact.real_add_real]
  refine ⟨reply, hr, Behavior.updateUnder_within (guard_within alarm) b _ _ _ hr, emits, ?_⟩
  intro negative sprite
  obtain ⟨_, again⟩ | ⟨r, hr, h0, _⟩ := answer
  · refine ⟨now + d, ?_, fun c hc => ?_⟩
    · simp [moved, hn]
    · cases hc
      exact ⟨again, hk⟩
  · rw [hr] at negative
    exact absurd (by simpa using h0) negative

theorem drive (h : p.Sound) (hd : 0 < d) (r : Rng) : ∃ leftover behavior stage,
    p.drive (real d) r = .ok (leftover, behavior, stage) ∧ (∀ q ∈ stage.emitted, q.Sound) ∧
    (¬0 ≤ leftover → (p.moved (real d) stage.sprite behavior).Sound) := by
  cases hb : p.behavior with
  | none =>
    refine ⟨0, none, ⟨p.sprite, r, #[]⟩, by rw [Particle.drive, hb], by simp, fun negative => ?_⟩
    exact absurd (by simp) negative
  | some b =>
    obtain ⟨reply, _, hu, emits, hs⟩ := h.update hd .unfinished hb ⟨p.sprite, r, #[]⟩
    refine ⟨reply.leftover, some reply.behavior, reply.stage, ?_, fun q hq => ?_,
      fun negative => hs negative _⟩
    · rw [Particle.drive, hb]
      exact bind_eq_ok.2 ⟨reply, hu, rfl⟩
    · obtain hq | hq := emits q hq
      · simp at hq
      · exact hq.sound

end Particle.Sound

namespace Scan

variable {d : ℝ} {s t : Scan Exact}

/-- A turn is never at fault, and keeps all particles sound. -/
theorem step_sound (hd : 0 < d) (h : ∀ p ∈ s.particles, p.Sound) :
    ∃ t, (s.step (real d) = .ok (.over t) ∨ s.step (real d) = .ok (.more t)) ∧
      ∀ p ∈ t.particles, p.Sound := by
  obtain ⟨index, particles, rng⟩ := s
  cases hp : particles[index]? with
  | none => exact ⟨⟨index, particles, rng⟩, .inl (by simp only [step, hp]), h⟩
  | some p =>
    obtain ⟨leftover, behavior, stage, hdrive, emitted, moved⟩ :=
      (h p (Array.mem_of_getElem? hp)).drive hd rng
    have all : ∀ q ∈ particles ++ stage.emitted, q.Sound := by
      intro q hq
      obtain hq | hq := Array.mem_append.1 hq
      · exact h q hq
      · exact emitted q hq
    refine ⟨_, .inr (step_of_drive hp hdrive), ?_⟩
    by_cases hl : 0 ≤ leftover
    · rw [if_pos hl]
      exact fun q hq => all q (mem_of_mem_replaceByLast hq)
    · rw [if_neg hl]
      intro q hq
      obtain hq | rfl := Array.mem_or_eq_of_mem_setIfInBounds hq
      · exact all q hq
      · exact moved hl

theorem run_sound (hd : 0 < d) (fuel : Nat) : ∀ {s : Scan Exact}, (∀ p ∈ s.particles, p.Sound) →
    run (real d) fuel s = .error .unfinished ∨
      ∃ t, run (real d) fuel s = .ok t ∧ ∀ p ∈ t.particles, p.Sound := by
  induction fuel with
  | zero => exact fun _ => .inl rfl
  | succ fuel ih =>
    intro s h
    obtain ⟨t, ht | ht, sound⟩ := step_sound hd h
    · exact .inr ⟨t, bind_eq_ok.2 ⟨_, ht, rfl⟩, sound⟩
    · have next : run (real d) (fuel + 1) s = run (real d) fuel t := by
        rw [run, ht]
        rfl
      rw [next]
      exact ih sound

inductive Reaches (dt : Exact) (s : Scan Exact) : Scan Exact → Prop
  | refl : Reaches dt s s
  | turn {t u : Scan Exact} : Reaches dt s t → t.step dt = .ok (.more u) → Reaches dt s u

theorem Reaches.sound (hd : 0 < d) (h : ∀ p ∈ s.particles, p.Sound) (hr : Reaches (real d) s t) :
    ∀ p ∈ t.particles, p.Sound := by
  induction hr with
  | refl => exact h
  | turn _ hstep ih =>
    obtain ⟨u, hu | hu, sound⟩ := step_sound hd ih
    · rw [hstep] at hu
      cases hu
    · rw [hstep] at hu
      cases hu
      exact sound

end Scan

namespace Field

inductive Reachable : Field Exact → Prop
  | empty {settings : Settings} : Reachable (empty settings)
  | add {f : Field Exact} {b : Behavior Exact} : Reachable f → Built b →
      Reachable (f.add (.ofBehavior b))
  | update {f g : Field Exact} {dt : Exact} : Reachable f → Scalar.IsFinite dt →
      f.update dt = .ok g → Reachable g

theorem update_sound {f : Field Exact} {dt : Exact} (h : ∀ p ∈ f.particles, p.Sound)
    (finite : Scalar.IsFinite dt) : f.update dt = .error .unfinished ∨
      ∃ g, f.update dt = .ok g ∧ ∀ p ∈ g.particles, p.Sound := by
  obtain ⟨d, rfl⟩ := Exact.isFinite_iff.1 finite
  unfold Field.update
  by_cases hd : 0 < real d
  · rw [if_pos hd]
    rw [Exact.zero_eq_real, Exact.real_lt_real] at hd
    obtain hu | ⟨t, ht, sound⟩ := Scan.run_sound hd Scan.turnLimit (s := ⟨0, f.particles, f.rng⟩) h
    · exact .inl (by rw [hu]; rfl)
    · exact .inr ⟨_, by rw [ht]; rfl, sound⟩
  · rw [if_neg hd]
    exact .inr ⟨f, rfl, h⟩

theorem Reachable.sound {f : Field Exact} (h : Reachable f) : ∀ p ∈ f.particles, p.Sound := by
  induction h with
  | empty => simp [Field.empty]
  | add _ hb ih =>
    intro p hp
    obtain hp | rfl := Array.mem_push.1 hp
    · exact ih p hp
    · exact (Particle.newborn_ofBehavior hb).sound
  | update _ finite hu ih =>
    obtain hf | ⟨g, hg, sound⟩ := update_sound ih finite
    · rw [hu] at hf
      cases hf
    · rw [hu] at hg
      cases hg
      exact sound

/-- Whatever alarm the guard of a field would raise, it is never raised: at every turn of
every tick the guarded update of the particle is its update. A tick meets no fault, unless
it has no end. -/
theorem guarded_update {f : Field Exact} (h : f.Reachable) {dt : Exact}
    (finite : Scalar.IsFinite dt) (alarm : Fault Exact) :
    (0 < dt → ∀ s, Scan.Reaches dt ⟨0, f.particles, f.rng⟩ s →
      ∀ p b, s.particles[s.index]? = some p → p.behavior = some b →
      let w : Window Exact := ⟨p.lifeTime, p.lifeTime + dt⟩
      let stage : Stage Exact := ⟨p.sprite, s.rng, #[]⟩
      ∃ reply, b.updateUnder (guard alarm) w stage = .ok reply ∧ b.update w stage = .ok reply) ∧
    ∀ fault, f.update dt = .error fault → fault = .unfinished := by
  constructor
  · intro hd s hs p b hp hb
    obtain ⟨d, rfl⟩ := Exact.isFinite_iff.1 finite
    rw [Exact.zero_eq_real, Exact.real_lt_real] at hd
    have sound := hs.sound hd h.sound p (Array.mem_of_getElem? hp)
    obtain ⟨reply, guarded, plain, _⟩ := sound.update hd alarm hb ⟨p.sprite, s.rng, #[]⟩
    exact ⟨reply, guarded, plain⟩
  · intro fault hf
    obtain hu | ⟨g, hg, _⟩ := update_sound h.sound finite
    · rw [hf] at hu
      cases hu
      rfl
    · rw [hf] at hg
      cases hg

/-- A pause over and over beside an emission of six, driven for three units. -/
theorem guarded_update_loop :
    let half : Behavior Exact := Behavior.pause.withTiming (.ofLifespan (real (1 / 2)))
    let burst : Behavior Exact := .emit .instant ⟨2, 3, 1⟩ (Gen.constant .pause)
    let f := (empty Settings.standard).add
      (.ofBehavior (.together [.loop (Gen.constant half) .single, burst]))
    f.Reachable ∧ Scalar.IsFinite (3 : Exact) ∧ (∀ s, Scan.Reaches 3 ⟨0, f.particles, f.rng⟩ s →
      ∀ p b, s.particles[s.index]? = some p → p.behavior = some b → ∃ reply,
        b.updateUnder (guard .noRoom) ⟨p.lifeTime, p.lifeTime + 3⟩ ⟨p.sprite, s.rng, #[]⟩ =
          .ok reply) ∧
      f.update 3 ≠ .error .noRoom := by
  intro half burst f
  have constant : ∀ b : Behavior Exact, (Gen.constant b : Gen Exact (Behavior Exact)).Total :=
    fun b _ r => ⟨b, r, rfl⟩
  have gives : ∀ b c : Behavior Exact, (Gen.constant b : Gen Exact (Behavior Exact)).Gives c →
      c = b := by
    rintro b c ⟨_, r, after, h⟩
    cases h
    rfl
  have builtHalf : Built half := by
    have set : Behavior.setLifespan .pause (real (1 / 2)) = .ok half := by
      simp [Behavior.setLifespan, Timing.setLifespan, Timing.isRunning, Behavior.timing,
        Behavior.pause, Behavior.ofEffect, Timing.instant, Timing.ofLifespan, half, Except.map]
    exact .lifespan .pause set
  have builtBurst : Built burst := by
    have made : Behavior.emission ⟨2, 3, 1⟩ (Gen.constant .pause) = .ok burst := rfl
    exact .emission (constant .pause) (fun c hc => gives _ c hc ▸ .pause) made
  have reachable : f.Reachable := by
    refine .add .empty (.together fun b hb => ?_)
    simp only [List.mem_cons, List.not_mem_nil, or_false] at hb
    obtain rfl | rfl := hb
    · exact .loop (constant half) fun c hc => gives _ c hc ▸ builtHalf
    · exact builtBurst
  have finite : Scalar.IsFinite (3 : Exact) := Exact.isFinite_iff.2 ⟨3, by simp⟩
  obtain ⟨turns, faults⟩ := guarded_update reachable finite .noRoom
  refine ⟨reachable, finite, fun s hs p b hp hb => ?_, fun h => ?_⟩
  · obtain ⟨reply, guarded, _⟩ := turns (by simp) s hs p b hp hb
    exact ⟨reply, guarded⟩
  · cases faults _ h

end Field

end ParticlePatterns
