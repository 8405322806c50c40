import ParticlePatterns.Proofs.Behavior.Progress
import ParticlePatterns.Proofs.Geometry.Motion
import ParticlePatterns.Proofs.Pattern.Bounds
import ParticlePatterns.Proofs.Pattern.Composition

/-!
# Rigid behaviors

A behavior is rigid if it turns by finite angles only and all times in it are finite, apart from
lifespans without end. Then every window of finite times turns the sprite by finite angles, so that
its orientation stays a turn, and the children that are emitted face where it faces. What is left of
a window is finite, too, and so are the windows that the parts of a rigid behavior get.
-/

set_option autoImplicit false

namespace ParticlePatterns

open Exact (real)
open Scalar (IsFinite)

section Times

def Window.IsFinite (w : Window Exact) : Prop :=
  Scalar.IsFinite w.start ∧ Scalar.IsFinite w.stop

theorem Window.IsFinite.exists_real {w : Window Exact} (h : w.IsFinite) :
    ∃ a b, w = ⟨real a, real b⟩ := by
  obtain ⟨start, stop⟩ := w
  obtain ⟨a, rfl⟩ := Exact.isFinite_iff.1 h.1
  obtain ⟨b, rfl⟩ := Exact.isFinite_iff.1 h.2
  exact ⟨a, b, rfl⟩

variable {t : Timing Exact} {w : Window Exact}

theorem Timing.isFinite_delta (hl : 0 ≤ t.lifespan) (hw : w.IsFinite) : IsFinite (t.delta w) := by
  obtain ⟨a, b, rfl⟩ := hw.exists_real
  obtain ⟨share, spreads⟩ := t.easing.exists_spreads hl
  show IsFinite (t.easing.delta (real a) (real b) t.lifespan)
  rw [spreads.delta]
  exact Exact.isFinite_real _

theorem Timing.isFinite_verdict (hl : 0 ≤ t.lifespan) (hw : w.IsFinite) :
    IsFinite (t.verdict w) := by
  obtain ⟨a, b, rfl⟩ := hw.exists_real
  obtain ⟨l, -, -, -, answer⟩ | ⟨-, answer⟩ := @Timing.verdict_cases t a b hl
  all_goals exact answer ▸ Exact.isFinite_real _

theorem Window.IsFinite.stopWithin (hw : w.IsFinite) {lifespan : Exact} (hl : 0 ≤ lifespan) :
    Scalar.IsFinite (w.stopWithin lifespan) := by
  obtain ⟨a, b, rfl⟩ := hw.exists_real
  unfold Window.stopWithin
  split
  · obtain ⟨l, rfl, -⟩ | rfl := Exact.eq_real_or_eq_infinity hl <;> simp
  · exact hw.2

theorem Chain.isFinite_childWindow {now stop offset : Exact} (hn : IsFinite now)
    (hs : IsFinite stop) (ho : IsFinite offset) (fresh : Bool) :
    (childWindow now stop offset fresh).IsFinite := by
  refine ⟨?_, hs.sub ho⟩
  cases fresh with
  | false => exact hn.sub ho
  | true => simp [childWindow]

end Times

section Effects

variable {t : Timing Exact} {w : Window Exact} {s : Sprite Exact}

theorem Effect.Uses.apply {α : Type} [Scalar α] {number : α → Prop} {e : Effect α}
    (h : e.Uses number) (t : Timing α) (first : Bool) (w : Window α) (s : Sprite α) :
    (e.apply t first w s).1.Uses number := by
  match e with
  | .pause => exact h
  | .modify p .set operand initial => exact h
  | .modify p .add operand initial => exact h
  | .modify p .multiply operand initial => exact h
  | .switch action fired =>
    rw [Effect.apply]
    split <;> trivial
  | .translate offset => exact h
  | .rotate degrees => exact h

theorem Effect.isTurn_apply {e : Effect Exact} (h : e.Uses IsFinite) (hl : 0 ≤ t.lifespan)
    (hw : w.IsFinite) (hs : s.rotation.IsTurn) (first : Bool) :
    (e.apply t first w s).2.rotation.IsTurn := by
  by_cases rotates : ∃ degrees, e = .rotate degrees
  · obtain ⟨⟨x, y, z⟩, rfl⟩ := rotates
    obtain ⟨hx, hy, hz⟩ := h
    have part := Timing.isFinite_delta hl hw
    obtain ⟨a, ha⟩ := Exact.isFinite_iff.1 (hx.mul part)
    obtain ⟨b, hb⟩ := Exact.isFinite_iff.1 (hy.mul part)
    obtain ⟨c, hc⟩ := Exact.isFinite_iff.1 (hz.mul part)
    simp only [apply, Vec3.scale, ha, hb, hc]
    exact Sprite.isTurn_rotate hs a b c
  · rw [rotation_apply (not_exists.1 rotates)]
    exact hs

end Effects

inductive Behavior.Rigid : Behavior Exact → Prop
  | leaf {timing : Timing Exact} {effect : Effect Exact} : 0 ≤ timing.lifespan →
      effect.Uses IsFinite → Rigid (.leaf timing effect)
  | emit {timing : Timing Exact} {batch : Batch} {body : Gen Exact (Behavior Exact)} :
      0 ≤ timing.lifespan → (∀ b, body.Gives b → Rigid b) → Rigid (.emit timing batch body)
  | chain {timing : Timing Exact} {supply : Supply Exact} {current : Option (Behavior Exact)}
      {offset : Exact} {fresh : Bool} : 0 ≤ timing.lifespan → IsFinite offset →
      (∀ b, supply.Gives b → Rigid b) → (∀ b, current = some b → Rigid b) →
      Rigid (.chain timing supply current offset fresh)
  | parallel {timing : Timing Exact} {branches : List (Behavior Exact × Option Exact)} :
      0 ≤ timing.lifespan → (∀ p ∈ branches, Rigid p.1) →
      (∀ p ∈ branches, ∀ time, p.2 = some time → IsFinite time) →
      Rigid (.parallel timing branches)

structure Particle.Rigid (p : Particle Exact) : Prop where
  age : IsFinite p.lifeTime
  turn : p.sprite.rotation.IsTurn
  behavior : ∀ b, p.behavior = some b → b.Rigid

structure Stage.Rigid (s : Stage Exact) : Prop where
  turn : s.sprite.rotation.IsTurn
  emitted : ∀ p ∈ s.emitted, p.Rigid

structure Reply.Rigid (r : Reply Exact) : Prop where
  leftover : IsFinite r.leftover
  behavior : r.behavior.Rigid
  stage : r.stage.Rigid

def Behavior.Steers (b : Behavior Exact) : Prop :=
  b.Rigid ∧ ∀ w stage reply, w.IsFinite → stage.Rigid → b.update w stage = .ok reply → reply.Rigid

theorem Behavior.Steers.child {b : Behavior Exact} (h : b.Steers) {now stop offset : Exact}
    {fresh : Bool} {stage : Stage Exact} {answer : Reply Exact} (hn : IsFinite now)
    (hs : IsFinite stop) (ho : IsFinite offset) (rigid : stage.Rigid)
    (answered : b.update (Chain.childWindow now stop offset fresh) stage = .ok answer) :
    answer.Rigid :=
  h.2 _ _ _ (Chain.isFinite_childWindow hn hs ho fresh) rigid answered

theorem Batch.spawn_rigid {body : Gen Exact (Behavior Exact)} (hb : ∀ b, body.Gives b → b.Rigid)
    {total : Nat} {after : Stage Exact} : ∀ {positions : List Nat} {stage : Stage Exact},
    stage.Rigid → spawn total body positions stage = .ok after → after.Rigid
  | [], _, rigid, h => Except.ok.inj h ▸ rigid
  | index :: rest, stage, rigid, h => by
    obtain ⟨⟨b, rng⟩, made, h⟩ := bind_eq_ok.1 h
    have child : (Particle.spawnedBy stage.sprite b).Rigid :=
      ⟨by simp [Particle.spawnedBy], rigid.turn, fun c same =>
        Option.some.inj same ▸ hb b ⟨_, _, rng, made⟩⟩
    have later : Stage.Rigid
        ⟨stage.sprite, rng, stage.emitted.push (Particle.spawnedBy stage.sprite b)⟩ := by
      refine ⟨rigid.turn, fun p hp => ?_⟩
      obtain hp | rfl := Array.mem_push.1 hp
      · exact rigid.emitted p hp
      · exact child
    exact spawn_rigid hb later h

section Courses

variable {timing : Timing Exact} {w : Window Exact} {start stop : Exact}

theorem Chain.Course.rigid {steps : Nat} {now : Exact} {supply : Supply Exact}
    {current : Option (Behavior Exact)} {offset : Exact} {fresh : Bool} {stage : Stage Exact}
    {reply : Reply Exact}
    (course : Course Behavior.update timing w stop steps now supply current offset fresh stage
      reply) (hl : 0 ≤ timing.lifespan) (hw : w.IsFinite) (hs : IsFinite stop) :
    IsFinite now → IsFinite offset → (∀ b, supply.Gives b → b.Steers) →
    (∀ b, current = some b → b.Steers) → stage.Rigid → reply.Rigid := by
  have verdict := Timing.isFinite_verdict hl hw
  induction course with
  | spent =>
    intro hn ho given running rigid
    exact ⟨verdict, .chain hl ho (fun b hb => (given b hb).1) fun b hb => (running b hb).1, rigid⟩
  | idle =>
    intro hn ho given running rigid
    exact ⟨hw.2.sub hn, .chain hl ho (fun b hb => (given b hb).1) (by simp), rigid⟩
  | waits answered _ =>
    intro hn ho given running rigid
    obtain ⟨-, kept, after⟩ := (running _ rfl).child hn hs ho rigid answered
    exact ⟨verdict, .chain hl ho (fun b hb => (given b hb).1)
      (fun b same => Option.some.inj same ▸ kept), after⟩
  | ends answered _ taken =>
    intro hn ho given running rigid
    obtain ⟨left, -, after⟩ := (running _ rfl).child hn hs ho rigid answered
    obtain ⟨-, rest, -⟩ := Supply.next_eq_ok taken
    have time := (hs.sub left).max hn
    exact ⟨hw.2.sub time, .chain hl time (fun b hb => (given b (rest b hb)).1) (by simp),
      after.turn, after.emitted⟩
  | defers answered _ taken _ =>
    intro hn ho given running rigid
    obtain ⟨left, -, after⟩ := (running _ rfl).child hn hs ho rigid answered
    obtain ⟨next, rest, -⟩ := Supply.next_eq_ok taken
    exact ⟨verdict, .chain hl ((hs.sub left).max hn) (fun b hb => (given b (rest b hb)).1)
      (fun b hb => (given b (next b hb)).1), after.turn, after.emitted⟩
  | turns answered _ taken _ _ ih =>
    intro hn ho given running rigid
    obtain ⟨left, -, after⟩ := (running _ rfl).child hn hs ho rigid answered
    obtain ⟨next, rest, -⟩ := Supply.next_eq_ok taken
    have time := (hs.sub left).max hn
    exact ih time time (fun b hb => given b (rest b hb)) (fun b hb => given b (next b hb))
      ⟨after.turn, after.emitted⟩

def Branch.Steer (branches : List (Behavior Exact × Option Exact)) : Prop :=
  ∀ p ∈ branches, p.1.Steers ∧ ∀ time, p.2 = some time → IsFinite time

structure Branch.Result.Rigid (r : Result Exact) : Prop where
  latest : IsFinite r.latest
  behaviors : ∀ p ∈ r.branches, p.1.Rigid
  times : ∀ p ∈ r.branches, ∀ time, p.2 = some time → IsFinite time
  stage : r.stage.Rigid

theorem Branch.Course.rigid {branches : List (Behavior Exact × Option Exact)} {latest : Exact}
    {complete : Bool} {stage : Stage Exact} {result : Result Exact}
    (course : Course Behavior.update start stop branches latest complete stage result)
    (hw : Window.IsFinite ⟨start, stop⟩) :
    IsFinite latest → Steer branches → stage.Rigid → result.Rigid := by
  induction course with
  | nil =>
    intro hl steer rigid
    exact ⟨hl, by simp, by simp, rigid⟩
  | done _ ih =>
    intro hl steer rigid
    obtain ⟨first, later⟩ := List.forall_mem_cons.1 steer
    have rest := ih (hl.max (first.2 _ rfl)) later rigid
    exact ⟨rest.latest, List.forall_mem_cons.2 ⟨first.1.1, rest.behaviors⟩,
      List.forall_mem_cons.2 ⟨first.2, rest.times⟩, rest.stage⟩
  | waits answered _ _ ih =>
    intro hl steer rigid
    obtain ⟨first, later⟩ := List.forall_mem_cons.1 steer
    obtain ⟨-, kept, after⟩ := first.1.2 _ _ _ hw rigid answered
    have rest := ih hl later after
    exact ⟨rest.latest, List.forall_mem_cons.2 ⟨kept, rest.behaviors⟩,
      List.forall_mem_cons.2 ⟨by simp, rest.times⟩, rest.stage⟩
  | ends answered _ _ ih =>
    intro hl steer rigid
    obtain ⟨first, later⟩ := List.forall_mem_cons.1 steer
    obtain ⟨left, kept, after⟩ := first.1.2 _ _ _ hw rigid answered
    have time := hw.2.sub left
    have rest := ih (hl.max time) later after
    exact ⟨rest.latest, List.forall_mem_cons.2 ⟨kept, rest.behaviors⟩,
      List.forall_mem_cons.2 ⟨fun _ same => Option.some.inj same ▸ time, rest.times⟩, rest.stage⟩

end Courses

namespace Behavior

/-- What one window leaves of a rigid behavior and its stage is rigid. -/
theorem Rigid.steers {b : Behavior Exact} (h : b.Rigid) : b.Steers := by
  refine ⟨h, ?_⟩
  induction h with
  | leaf hl uses =>
    intro w stage reply hw rigid answered
    obtain ⟨first, entered, clock, rfl⟩ := Effect.update_eq_ok.1 answered
    obtain ⟨-, rfl⟩ := Timing.enter_eq_ok clock
    exact ⟨Timing.isFinite_verdict hl hw, .leaf hl (uses.apply _ _ _ _),
      Effect.isTurn_apply uses hl hw rigid.turn _, rigid.emitted⟩
  | emit hl given _ =>
    intro w stage reply hw rigid answered
    obtain ⟨first, entered, after, clock, spawned, rfl⟩ := Batch.update_eq_ok.1 answered
    obtain ⟨-, rfl⟩ := Timing.enter_eq_ok clock
    exact ⟨Timing.isFinite_verdict hl hw, .emit hl given, Batch.spawn_rigid given rigid spawned⟩
  | chain hl ho given running ihs ihc =>
    intro w stage reply hw rigid answered
    rw [update_chain] at answered
    obtain ⟨first, entered, clock, course⟩ := Chain.update_eq_ok.1 answered
    obtain ⟨-, rfl⟩ := Timing.enter_eq_ok clock
    have steerable := fun b hb => And.intro (given b hb) (ihs b hb)
    have inside := hw.stopWithin hl
    split at course
    · obtain ⟨taken, after, rng, found, course⟩ := course
      obtain ⟨next, rest, -⟩ := Supply.next_eq_ok found
      exact course.rigid hl hw inside hw.1 (by simp) (fun b hb => steerable b (rest b hb))
        (fun b hb => steerable b (next b hb)) ⟨rigid.turn, rigid.emitted⟩
    · exact course.rigid hl hw inside hw.1 ho steerable
        (fun b hb => ⟨running b hb, ihc b hb⟩) rigid
  | parallel hl parts times ih =>
    intro w stage reply hw rigid answered
    rw [update_parallel] at answered
    obtain ⟨first, entered, result, clock, course, rfl⟩ := Branch.update_eq_ok.1 answered
    obtain ⟨-, rfl⟩ := Timing.enter_eq_ok clock
    have done := course.rigid ⟨hw.1, hw.stopWithin hl⟩ hw.1
      (fun p hp => ⟨⟨parts p hp, ih p hp⟩, times p hp⟩) rigid
    refine ⟨?_, .parallel hl done.behaviors done.times, done.stage⟩
    split
    · exact hw.2.sub done.latest
    · exact Timing.isFinite_verdict hl hw

theorem Rigid.withTiming {b : Behavior Exact} (h : b.Rigid) {t : Timing Exact}
    (hl : 0 ≤ t.lifespan) : (b.withTiming t).Rigid := by
  cases h with
  | leaf _ uses => exact .leaf hl uses
  | emit _ given => exact .emit hl given
  | chain _ ho given running => exact .chain hl ho given running
  | parallel _ parts times => exact .parallel hl parts times

theorem Rigid.lifespan {b : Behavior Exact} (h : b.Rigid) : 0 ≤ b.timing.lifespan := by
  cases h <;> assumption

/-- What is composed of finite numbers is rigid. -/
theorem Composed.rigid {b : Behavior Exact} (h : b.Composed IsFinite) : b.Rigid := by
  have unbounded : 0 ≤ (Timing.unbounded : Timing Exact).lifespan := by
    simp [Timing.unbounded, Timing.ofLifespan]
  have instant : 0 ≤ (Timing.instant : Timing Exact).lifespan := by
    simp [Timing.instant, Timing.ofLifespan]
  induction h with
  | effect uses => exact .leaf instant uses
  | emission _ made ih =>
    unfold Behavior.emission at made
    split at made
    · cases made
    · cases made
      exact .emit instant ih
  | body _ ih =>
    refine .chain unbounded (by simp) ?_ (by simp)
    rintro b ⟨r, after, made⟩
    exact ih b ⟨_, r, after, made⟩
  | sequence _ ih => exact .chain unbounded (by simp) ih (by simp)
  | together _ ih => exact .parallel unbounded (by simpa using ih) (by simp)
  | lasting _ _ set ih =>
    obtain ⟨t, kept, rfl⟩ := map_eq_ok.1 set
    unfold Timing.setLifespan at kept
    split at kept
    · cases kept
    · split at kept
      next nonneg =>
        cases kept
        exact ih.withTiming nonneg
      · cases kept
  | eased _ set ih =>
    obtain ⟨t, kept, rfl⟩ := map_eq_ok.1 set
    unfold Timing.setEasing at kept
    split at kept
    · cases kept
    · cases kept
      exact ih.withTiming ih.lifespan

end Behavior

end ParticlePatterns
