import ParticlePatterns.Proofs.Behavior.Protocol

/-!
# Behaviors that may be driven

A behavior that is ready at some time of its own is answered at every window from there
on, and is ready again at the end of it unless it is complete. The times of a chain and
of what it is driving differ by the offset, also when the chain is cut off, falls behind
or starts its next behavior late.
-/

set_option autoImplicit false

namespace ParticlePatterns

open Exact (real)

inductive Ready : ℝ → Behavior Exact → Prop
  | leaf {now : ℝ} {timing : Timing Exact} {effect : Effect Exact} : timing.Alive now →
      Ready now (.leaf timing effect)
  | emit {now : ℝ} {timing : Timing Exact} {batch : Batch} {body : Gen Exact (Behavior Exact)} :
      timing.Alive now → body.Total → (∀ b, body.Gives b → Built b) →
      Ready now (.emit timing batch body)
  | first {timing : Timing Exact} {supply : Supply Exact} {current : Option (Behavior Exact)}
      {offset : Exact} {fresh : Bool} : timing.lastStop = none → 0 ≤ timing.lifespan →
      supply.Total → (∀ b, supply.Gives b → Built b) → (∀ b, supply.Gives b → Ready 0 b) →
      Ready 0 (.chain timing supply current offset fresh)
  | chain {now offset : ℝ} {timing : Timing Exact} {supply : Supply Exact}
      {child : Behavior Exact} {fresh : Bool} : timing.lastStop = some (real now) →
      0 ≤ timing.lifespan → real now < timing.lifespan →
      supply.Total → (∀ b, supply.Gives b → Built b) → (∀ b, supply.Gives b → Ready 0 b) →
      Known child → (fresh = true → offset ≤ now) → Ready (childStart now offset fresh) child →
      Ready now (.chain timing supply (some child) (real offset) fresh)
  | parallel {now : ℝ} {timing : Timing Exact} {branches : List (Behavior Exact × Option Exact)} :
      timing.Alive now → (timing.isRunning = true → ∃ p ∈ branches, p.2 = none) →
      (∀ p ∈ branches, p.2 = none → Known p.1) → (∀ p ∈ branches, p.2 = none → Ready now p.1) →
      (∀ p ∈ branches, ∀ time, p.2 = some time → ∃ x, time = real x ∧ x ≤ now) →
      Ready now (.parallel timing branches)

namespace Ready

variable {now stop : ℝ} {b : Behavior Exact}

theorem alive (h : Ready now b) : b.timing.Alive now := by
  cases h with
  | leaf ha => exact ha
  | emit ha => exact ha
  | first hn hl => exact .inl ⟨hn, rfl, hl⟩
  | chain hs hl hb => exact .inr ⟨hs, hl, hb⟩
  | parallel ha => exact ha

theorem not_over (h : Ready now b) : ¬b.Over := by
  rintro ⟨time, ht, ho⟩
  have below : ¬b.timing.lifespan ≤ time := by
    obtain ⟨hn, _⟩ | ⟨hs, h0, hb⟩ := h.alive
    · rw [hn] at ht
      cases ht
    · rw [hs] at ht
      cases ht
      obtain ⟨l, hl, _⟩ | hl := Exact.eq_real_or_eq_infinity h0
      · rw [hl] at hb ⊢
        simpa using hb
      · rw [hl]
        exact Exact.not_infinity_le_real
  have left : ¬b.Exhausted := by
    cases h with
    | leaf => exact id
    | emit => exact id
    | first hn =>
      rw [Behavior.timing, hn] at ht
      cases ht
    | chain => exact Option.some_ne_none _
    | parallel _ hr =>
      rw [Behavior.timing] at ht
      obtain ⟨p, hp, hn⟩ := hr (by simp [Timing.isRunning, ht])
      exact fun all => all p hp hn
  exact ho.elim below left

/-- Whatever has been, a window from the time on at which a behavior is ready follows. -/
theorem admissible (h : Ready now b) (hk : Known b) (hw : now < stop) :
    Admissible b ⟨real now, real stop⟩ := by
  refine ⟨hk, fun past hp => ?_⟩
  have later : real now < real stop := Exact.real_lt_real.2 hw
  cases hp with
  | start hb =>
    obtain ⟨_, rfl, _⟩ | ⟨hs, _⟩ := h.alive
    · exact ⟨Exact.zero_eq_real.symm, later⟩
    · rw [hb.not_running] at hs
      cases hs
  | @window before past w stage reply _ hu =>
    have ht := Behavior.timing_of_update hu
    refine ⟨?_, later, ?_⟩
    · obtain ⟨hn, _⟩ | ⟨hs, _⟩ := h.alive
      · rw [ht] at hn
        cases hn
      · rw [ht] at hs
        exact (Option.some.inj hs).symm
    · by_cases hn : reply.leftover < 0
      · exact hn
      · exact absurd (Behavior.over_of_update hu hn) h.not_over

end Ready

/-- Before the first window the timing can be anything that is allowed. -/
theorem Ready.withTiming {b : Behavior Exact} {t : Timing Exact} (h : Ready 0 b)
    (hb : b.timing.lastStop = none) (hn : t.lastStop = none) (hl : 0 ≤ t.lifespan) :
    Ready 0 (b.withTiming t) := by
  have alive : t.Alive 0 := .inl ⟨hn, rfl, hl⟩
  cases h with
  | leaf => exact .leaf alive
  | emit _ total built => exact .emit alive total built
  | first _ _ total built ready => exact .first hn hl total built ready
  | chain hs =>
    rw [Behavior.timing, hs] at hb
    cases hb
  | parallel _ _ known ready times =>
    refine .parallel alive (fun hr => ?_) known ready times
    rw [Timing.isRunning, hn] at hr
    cases hr

theorem Built.ready {b : Behavior Exact} (h : Built b) : Ready 0 b := by
  have instant : (Timing.instant : Timing Exact).Alive 0 :=
    .inl ⟨rfl, rfl, by simp [Timing.instant, Timing.ofLifespan]⟩
  have unbounded : (0 : Exact) ≤ Scalar.infinity := by simp
  induction h with
  | pause => exact .leaf instant
  | modify => exact .leaf instant
  | switch => exact .leaf instant
  | translate => exact .leaf instant
  | rotate => exact .leaf instant
  | emission total built hb =>
    unfold Behavior.emission at hb
    split at hb
    · cases hb
    · cases hb
      exact .emit instant total built
  | @loop body sibling total built ready =>
    exact .first rfl unbounded (total sibling) (fun b hb => built b ⟨_, hb⟩)
      fun b hb => ready b ⟨_, hb⟩
  | @repetition body sibling limit total built ready =>
    exact .first rfl unbounded (total sibling) (fun b hb => built b ⟨_, hb⟩)
      fun b hb => ready b ⟨_, hb⟩
  | sequence built ready => exact .first rfl unbounded trivial built ready
  | together built ready =>
    refine .parallel (.inl ⟨rfl, rfl, unbounded⟩) (fun hr => ?_) ?_ ?_ ?_
    · cases hr
    · intro p hp _
      obtain ⟨b, hb, rfl⟩ := List.mem_map.1 hp
      exact ⟨[], .start (built b hb)⟩
    · intro p hp _
      obtain ⟨b, hb, rfl⟩ := List.mem_map.1 hp
      exact ready b hb
    · intro p hp time ht
      obtain ⟨b, hb, rfl⟩ := List.mem_map.1 hp
      cases ht
  | easing hb he ready =>
    obtain ⟨timing, ht, rfl⟩ := map_eq_ok.1 he
    unfold Timing.setEasing at ht
    split at ht
    · cases ht
    · cases ht
      exact ready.withTiming hb.not_running hb.not_running ready.alive.nonneg
  | lifespan hb hl ready =>
    obtain ⟨timing, ht, rfl⟩ := map_eq_ok.1 hl
    unfold Timing.setLifespan at ht
    split at ht
    · cases ht
    · split at ht
      · cases ht
        exact ready.withTiming hb.not_running hb.not_running ‹_›
      · cases ht

def Newborn (p : Particle Exact) : Prop :=
  p.lifeTime = 0 ∧ ∃ b, p.behavior = some b ∧ Built b

def Emits (before after : Stage Exact) : Prop :=
  ∀ p ∈ after.emitted, p ∈ before.emitted ∨ Newborn p

theorem Emits.refl (s : Stage Exact) : Emits s s :=
  fun _ hp => .inl hp

theorem Emits.trans {s t u : Stage Exact} (h : Emits s t) (h' : Emits t u) : Emits s u := by
  intro p hp
  obtain hp | hp := h' p hp
  · exact h p hp
  · exact .inr hp

theorem Batch.spawn_emits {total : Nat} {body : Gen Exact (Behavior Exact)} (ht : body.Total)
    (hb : ∀ b, body.Gives b → Built b) : ∀ (positions : List Nat) (stage : Stage Exact),
    ∃ after, spawn total body positions stage = .ok after ∧ Emits stage after
  | [], stage => ⟨stage, rfl, .refl stage⟩
  | index :: rest, stage => by
      obtain ⟨b, rng, hm⟩ := ht ⟨index, total⟩ stage.rng
      obtain ⟨after, ha, he⟩ := spawn_emits ht hb rest
        { stage with rng, emitted := stage.emitted.push (.spawnedBy stage.sprite b) }
      refine ⟨after, bind_eq_ok.2 ⟨_, hm, ha⟩, .trans ?_ he⟩
      intro p hp
      obtain hp | rfl := Array.mem_push.1 hp
      · exact .inl hp
      · exact .inr ⟨rfl, b, rfl, hb b ⟨_, _, _, hm⟩⟩

structure Answered (start stop : ℝ) (stage : Stage Exact) (reply : Reply Exact) : Prop where
  answer : (reply.leftover < 0 ∧ Ready stop reply.behavior) ∨
    ∃ r, reply.leftover = real r ∧ 0 ≤ r ∧ r ≤ stop - start
  emits : Emits stage reply.stage

end ParticlePatterns
