import ParticlePatterns.Field.Basic
import ParticlePatterns.Proofs.Behavior.Pauses
import ParticlePatterns.Proofs.Number.Machine

/-!
# One turn for everyone

A tick in which the particle whose turn it is leaves an idle one in its place, and which
keeps a record of every turn. How behaviors answer their windows is left open; with their
own updates it is the tick of a field. Every particle, be it there from the start or emitted
on the way, has one turn, and the field holds just what these turns have left.
-/

set_option autoImplicit false

namespace ParticlePatterns

variable {α : Type}

structure Visit (α : Type) where
  particle : Particle α
  rng : Rng
  leftover : α
  behavior : Option (Behavior α)
  stage : Stage α

structure Sweep (α : Type) where
  index : Nat
  slots : Array (Particle α)
  rng : Rng
  visits : List (Visit α)

section Definitions

variable [Scalar α]

def Visit.after (dt : α) (v : Visit α) : Particle α :=
  v.particle.moved dt v.stage.sprite v.behavior

variable (answer : Behavior α → Update α) (dt : α)

def Particle.visit (p : Particle α) (r : Rng) : Except (Fault α) (Visit α) :=
  match p.behavior with
  | none => .ok ⟨p, r, 0, none, ⟨p.sprite, r, #[]⟩⟩
  | some b => do
      let reply ← answer b ⟨p.lifeTime, p.lifeTime + dt⟩ ⟨p.sprite, r, #[]⟩
      pure ⟨p, r, reply.leftover, some reply.behavior, reply.stage⟩

namespace Sweep

/-- An idle particle holds the place of the one that is driven, so the children are appended
behind it. Then it is replaced in turn. -/
def settle (s : Sweep α) (v : Visit α) : Sweep α :=
  let slots := s.slots.setIfInBounds s.index .idle ++ v.stage.emitted
  if 0 ≤ v.leftover then ⟨s.index, replaceByLast slots s.index, v.stage.rng, s.visits ++ [v]⟩
  else ⟨s.index + 1, slots.setIfInBounds s.index (v.after dt), v.stage.rng, s.visits ++ [v]⟩

def run : Nat → Sweep α → Except (Fault α) (Sweep α)
  | 0, _ => .error .unfinished
  | fuel + 1, s => match s.slots[s.index]? with
    | none => .ok s
    | some p => do
        let v ← p.visit answer dt s.rng
        run fuel (s.settle dt v)

end Sweep

def Field.updateBy (f : Field α) : Except (Fault α) (Field α × List (Visit α)) :=
  if 0 < dt then do
    let s ← Sweep.run answer dt Scan.turnLimit ⟨0, f.particles, f.rng, []⟩
    pure ({ f with particles := s.slots, rng := s.rng }, s.visits)
  else .ok (f, [])

def Visit.Driven (v : Visit α) : Prop :=
  match v.particle.behavior with
  | none => v.leftover = 0 ∧ v.behavior = none ∧ v.stage = ⟨v.particle.sprite, v.rng, #[]⟩
  | some b => ∃ reply,
      answer b ⟨v.particle.lifeTime, v.particle.lifeTime + dt⟩ ⟨v.particle.sprite, v.rng, #[]⟩ =
        .ok reply ∧ v.leftover = reply.leftover ∧ v.behavior = some reply.behavior ∧
      v.stage = reply.stage

def Visit.GoesOn (v : Visit α) : Prop :=
  ¬0 ≤ v.leftover

instance (v : Visit α) : Decidable v.GoesOn :=
  inferInstanceAs (Decidable ¬_)

end Definitions

def emittedIn (visits : List (Visit α)) : List (Particle α) :=
  visits.flatMap fun v => v.stage.emitted.toList

def leftBy [Scalar α] (dt : α) (visits : List (Visit α)) : List (Particle α) :=
  (visits.filter fun v => v.GoesOn).map (Visit.after dt)

section Arrays

variable {T : Type}

def lastFirst (xs : List T) : List T :=
  xs.getLast?.toList ++ xs.dropLast

theorem lastFirst_perm (xs : List T) : (lastFirst xs).Perm xs := by
  obtain rfl | ⟨init, last, rfl⟩ := xs.eq_nil_or_concat
  · exact .refl _
  · simpa [lastFirst] using (List.perm_append_singleton last init).symm

/-- What was at the place itself makes no difference. -/
theorem toList_replaceByLast {xs : Array T} {done rest : List T} {x : T}
    (h : xs.toList = done ++ x :: rest) :
    (replaceByLast xs done.length).toList = done ++ lastFirst rest := by
  obtain ⟨xs⟩ := xs
  simp only at h
  subst h
  obtain rfl | ⟨init, last, rfl⟩ := rest.eq_nil_or_concat
  · simp [replaceByLast, Array.swapIfInBounds, lastFirst]
  · have back : (done ++ last :: (init ++ [x])).dropLast = done ++ last :: init := by
      rw [← List.cons_append, ← List.append_assoc, List.dropLast_concat]
    simpa [replaceByLast, Array.swapIfInBounds, lastFirst] using back

theorem toList_setIfInBounds_append {xs : Array T} (ys : Array T) {done rest : List T} {x : T}
    (y : T) (h : xs.toList = done ++ x :: rest) :
    (xs.setIfInBounds done.length y ++ ys).toList = done ++ y :: (rest ++ ys.toList) := by
  simp [h]

theorem exists_split {xs : Array T} {i : Nat} {x : T} (h : xs[i]? = some x) :
    ∃ done rest, xs.toList = done ++ x :: rest ∧ done.length = i := by
  obtain ⟨hi, rfl⟩ := Array.getElem?_eq_some_iff.1 h
  refine ⟨xs.toList.take i, xs.toList.drop (i + 1), ?_, by simpa using hi.le⟩
  rw [← Array.getElem_toList, List.getElem_cons_drop, List.take_append_drop]

end Arrays

section Turns

variable [Scalar α] {answer : Behavior α → Update α} {dt : α}

theorem Particle.driven_of_visit {p : Particle α} {r : Rng} {v : Visit α}
    (h : p.visit answer dt r = .ok v) : v.particle = p ∧ v.Driven answer dt := by
  unfold visit at h
  split at h
  · rename_i hb
    cases h
    refine ⟨rfl, ?_⟩
    simp only [Visit.Driven, hb, and_self]
  · rename_i b hb
    obtain ⟨reply, hr, h⟩ := bind_eq_ok.1 h
    cases h
    refine ⟨rfl, ?_⟩
    simp only [Visit.Driven, hb]
    exact ⟨reply, hr, rfl, rfl, rfl⟩

/-- Without a behavior a particle is complete at once, so what goes on has one. -/
theorem Visit.Driven.behavior_ne_none [Scalar.Signed α] {v : Visit α} (h : v.Driven answer dt)
    (goes : v.GoesOn) : v.behavior ≠ none := by
  unfold Driven at h
  split at h
  · rw [Visit.GoesOn, h.1] at goes
    exact absurd Scalar.Signed.zero_le_zero goes
  · obtain ⟨reply, _, _, hb, _⟩ := h
    simp [hb]

namespace Sweep

/-- The particles before the index have had their turn and gone on. All others are still to
have one, and with those who have had it they are all there ever were. -/
structure Fair (answer : Behavior α → Update α) (dt : α) (start : List (Particle α))
    (s : Sweep α) : Prop where
  done : s.slots.toList.take s.index = leftBy dt s.visits
  once : (s.visits.map Visit.particle ++ s.slots.toList.drop s.index).Perm
    (start ++ emittedIn s.visits)
  driven : ∀ v ∈ s.visits, v.Driven answer dt

variable {start : List (Particle α)} {s t : Sweep α}

theorem Fair.settle {p : Particle α} {v : Visit α} (h : s.Fair answer dt start)
    (hp : s.slots[s.index]? = some p) (hv : p.visit answer dt s.rng = .ok v) :
    (s.settle dt v).Fair answer dt start := by
  obtain ⟨rfl, driven⟩ := Particle.driven_of_visit hv
  obtain ⟨done, rest, split, length⟩ := exists_split hp
  have hole := toList_setIfInBounds_append v.stage.emitted .idle split
  have hdone := h.done
  have honce := h.once
  simp only [split, ← length, List.take_left, List.drop_left] at hdone honce
  -- the particle has moved from those to come to those who have had their turn
  have later {rest' : List (Particle α)} (hr : rest'.Perm (rest ++ v.stage.emitted.toList)) :
      ((s.visits ++ [v]).map Visit.particle ++ rest').Perm
        (start ++ emittedIn (s.visits ++ [v])) := by
    have all := (honce.append_right v.stage.emitted.toList)
    simp only [emittedIn, List.map_append, List.map_cons, List.map_nil, List.flatMap_append,
      List.flatMap_cons, List.flatMap_nil, List.append_nil, List.append_assoc,
      List.cons_append, List.nil_append] at all ⊢
    exact ((hr.cons _).append_left _).trans all
  have driven' : ∀ w ∈ s.visits ++ [v], w.Driven answer dt := by
    intro w hw
    obtain hw | hw := List.mem_append.1 hw
    · exact h.driven w hw
    · rw [List.mem_singleton.1 hw]
      exact driven
  by_cases complete : 0 ≤ v.leftover
  · have kept := toList_replaceByLast hole
    have gone : ¬v.GoesOn := not_not_intro complete
    rw [Sweep.settle, if_pos complete]
    refine ⟨?_, ?_, driven'⟩
    · have same : leftBy dt (s.visits ++ [v]) = leftBy dt s.visits := by simp [leftBy, gone]
      simp only [← length, kept, List.take_left, same]
      exact hdone
    · simp only [← length, kept, List.drop_left]
      exact later (lastFirst_perm _)
  · have goes : v.GoesOn := complete
    have back : ((s.slots.setIfInBounds s.index .idle ++ v.stage.emitted).setIfInBounds s.index
        (v.after dt)).toList = (done ++ [v.after dt]) ++ (rest ++ v.stage.emitted.toList) := by
      rw [Array.toList_setIfInBounds, ← length, hole]
      simp
    have count : s.index + 1 = (done ++ [v.after dt]).length := by simp [length]
    rw [Sweep.settle, if_neg complete]
    refine ⟨?_, ?_, driven'⟩
    · simp only [back]
      rw [count, List.take_left, hdone]
      simp [leftBy, goes]
    · simp only [back]
      rw [count, List.drop_left]
      exact later (.refl _)

theorem run_succ {p : Particle α} {v : Visit α} (fuel : Nat) (hp : s.slots[s.index]? = some p)
    (hv : p.visit answer dt s.rng = .ok v) :
    run answer dt (fuel + 1) s = run answer dt fuel (s.settle dt v) := by
  rw [run, hp]
  exact congrArg (· >>= fun v => run answer dt fuel (s.settle dt v)) hv

/-- At the end of a tick nobody is left without a turn. -/
theorem Fair.run (fuel : Nat) : ∀ {s t : Sweep α}, s.Fair answer dt start →
    Sweep.run answer dt fuel s = .ok t → t.Fair answer dt start ∧ t.slots[t.index]? = none := by
  induction fuel with
  | zero =>
    intro s t _ h
    cases h
  | succ fuel ih =>
    intro s t fair h
    rw [Sweep.run] at h
    split at h
    · rename_i hp
      cases h
      exact ⟨fair, hp⟩
    · rename_i p hp
      obtain ⟨v, hv, h⟩ := bind_eq_ok.1 h
      exact ih (fair.settle hp hv) h

end Sweep

/-! With their own updates behind them the turns are those of a field. -/

theorem Particle.drive_eq_visit (p : Particle α) (r : Rng) : p.drive dt r =
    (p.visit Behavior.update dt r).map fun v => (v.leftover, v.behavior, v.stage) := by
  unfold drive visit
  cases p.behavior with
  | none => rfl
  | some b =>
    simp only
    cases b.update ⟨p.lifeTime, p.lifeTime + dt⟩ ⟨p.sprite, r, #[]⟩ <;> rfl

def Sweep.toScan (s : Sweep α) : Scan α :=
  ⟨s.index, s.slots, s.rng⟩

/-- Nothing is ever seen of the idle particle. -/
theorem Scan.step_eq_settle (s : Sweep α) : s.toScan.step dt =
    match s.slots[s.index]? with
    | none => .ok (.over s.toScan)
    | some p => (p.visit Behavior.update dt s.rng).map fun v => .more (s.settle dt v).toScan := by
  obtain ⟨index, slots, rng, visits⟩ := s
  simp only [Sweep.toScan, Scan.step]
  cases hp : slots[index]? with
  | none => rfl
  | some p =>
    simp only
    rw [Particle.drive_eq_visit]
    cases hv : p.visit Behavior.update dt rng with
    | error fault => rfl
    | ok v =>
      obtain ⟨rfl, -⟩ := Particle.driven_of_visit hv
      obtain ⟨done, rest, split, rfl⟩ := exists_split hp
      have hole := toList_setIfInBounds_append v.stage.emitted .idle split
      have plain : (slots ++ v.stage.emitted).toList =
          done ++ v.particle :: (rest ++ v.stage.emitted.toList) := by simp [split]
      have replaced : replaceByLast (slots.setIfInBounds done.length .idle ++ v.stage.emitted)
          done.length = replaceByLast (slots ++ v.stage.emitted) done.length := by
        rw [← Array.toList_inj, toList_replaceByLast hole, toList_replaceByLast plain]
      have back : (slots.setIfInBounds done.length .idle ++ v.stage.emitted).setIfInBounds
          done.length (v.after dt) = (slots ++ v.stage.emitted).setIfInBounds done.length
            (v.after dt) := by
        rw [← Array.toList_inj, Array.toList_setIfInBounds, Array.toList_setIfInBounds, hole, plain]
        simp
      by_cases complete : 0 ≤ v.leftover
      · simp [Except.map, bind, Except.bind, pure, Except.pure, Sweep.settle, complete, replaced]
      · simp [Except.map, bind, Except.bind, pure, Except.pure, Sweep.settle, complete]
        exact back.symm

theorem Scan.run_eq_map (fuel : Nat) : ∀ s : Sweep α, Scan.run dt fuel s.toScan =
    (Sweep.run Behavior.update dt fuel s).map Sweep.toScan := by
  induction fuel with
  | zero => exact fun _ => rfl
  | succ fuel ih =>
    intro s
    rw [Scan.run, Scan.step_eq_settle, Sweep.run]
    cases s.slots[s.index]? with
    | none => rfl
    | some p =>
      simp only
      cases p.visit Behavior.update dt s.rng with
      | error fault => rfl
      | ok v => exact ih _

end Turns

namespace Field

open Exact (real)

variable [Scalar α] {dt : α}

theorem update_eq_updateBy (f : Field α) :
    f.update dt = (f.updateBy Behavior.update dt).map Prod.fst := by
  unfold update updateBy
  by_cases hdt : 0 < dt
  · rw [if_pos hdt, if_pos hdt]
    have run : Scan.run dt Scan.turnLimit ⟨0, f.particles, f.rng⟩ = _ :=
      Scan.run_eq_map Scan.turnLimit ⟨0, f.particles, f.rng, []⟩
    rw [run]
    cases Sweep.run Behavior.update dt Scan.turnLimit ⟨0, f.particles, f.rng, []⟩ <;> rfl
  · rw [if_neg hdt, if_neg hdt]
    rfl

structure Accounts (answer : Behavior α → Update α) (dt : α) (f : Field α)
    (visits : List (Visit α)) (g : Field α) : Prop where
  /-- Whoever was there at the start and whoever was added had one turn, and nobody else. -/
  once : (visits.map Visit.particle).Perm (f.particles.toList ++ emittedIn visits)
  driven : ∀ v ∈ visits, v.Driven answer dt
  /-- Those who go on are there, later by `dt` and with their behaviors, and nobody else. -/
  left : g.particles.toList = leftBy dt visits
  /-- So an idle particle, which only held the place of another, is not. -/
  held : ∀ p ∈ g.particles, ∃ v ∈ visits, v.GoesOn ∧ p.lifeTime = v.particle.lifeTime + dt ∧
    p.behavior = v.behavior ∧ p.behavior ≠ none
  size : g.size + (visits.filter fun v => ¬v.GoesOn).length = f.size + (emittedIn visits).length

/-- Behaviors may answer their windows in any way, also by emitting any number of children. -/
theorem turns_account [Scalar.Signed α] (answer : Behavior α → Update α) (f : Field α)
    (hdt : 0 < dt) : f.update dt = (f.updateBy Behavior.update dt).map Prod.fst ∧
      ∀ g visits, f.updateBy answer dt = .ok (g, visits) → Accounts answer dt f visits g := by
  refine ⟨update_eq_updateBy f, fun g visits h => ?_⟩
  rw [updateBy, if_pos hdt] at h
  obtain ⟨s, hs, h⟩ := bind_eq_ok.1 h
  cases h
  have start : Sweep.Fair answer dt f.particles.toList ⟨0, f.particles, f.rng, []⟩ :=
    ⟨rfl, by simp [emittedIn], by simp⟩
  obtain ⟨fair, finished⟩ := start.run _ hs
  have behind : s.slots.toList.length ≤ s.index := by simpa using finished
  have once := fair.once
  have left := fair.done
  rw [List.drop_of_length_le behind, List.append_nil] at once
  rw [List.take_of_length_le behind] at left
  refine ⟨once, fair.driven, left, fun p hp => ?_, ?_⟩
  · rw [← Array.mem_toList_iff, left] at hp
    obtain ⟨v, hv, rfl⟩ := List.mem_map.1 hp
    obtain ⟨hv, goes⟩ := List.mem_filter.1 hv
    have goes : v.GoesOn := of_decide_eq_true goes
    exact ⟨v, hv, goes, rfl, rfl, (fair.driven v hv).behavior_ne_none goes⟩
  · have turns : s.visits.length = f.size + (emittedIn s.visits).length := by
      simpa [size] using once.length_eq
    have stay : s.slots.size = (s.visits.filter fun v => v.GoesOn).length := by
      simpa [leftBy] using congrArg List.length left
    have parts := s.visits.length_eq_length_filter_add fun v => decide v.GoesOn
    simp only [size, stay, decide_not]
    exact parts.symm.trans turns

/-- An idle particle goes at once, a burst of one child takes its place and goes as well, and
the child, which is last by then, has its turn in the same place and stays. -/
theorem turns_account_child :
    let child : Behavior Exact := .leaf (.ofLifespan (real 5)) .pause
    let burst : Behavior Exact := .emit .instant ⟨1, 1, 1⟩ (Gen.constant child)
    let f : Field Exact := ((empty Settings.standard).add .idle).add (.ofBehavior burst)
    0 < (1 : Exact) ∧ f.update 1 = (f.updateBy Behavior.update 1).map Prod.fst ∧
      ∃ g visits, f.updateBy Behavior.update 1 = .ok (g, visits) ∧
        Accounts Behavior.update 1 f visits g ∧ visits.length = 3 ∧ g.size = 1 := by
  intro child burst f
  have positive : 0 < (1 : Exact) := by simp
  obtain ⟨same, accounts⟩ := turns_account Behavior.update f positive
  let r : Rng := .ofSeed Settings.standard.seed
  let stage : Stage Exact := ⟨.initial, r, #[]⟩
  let born : Particle Exact := .spawnedBy .initial child
  let first : Visit Exact := ⟨.idle, r, 0, none, stage⟩
  let second : Visit Exact := ⟨.ofBehavior burst, r, real 1,
    some (burst.withTiming ⟨.linear, 0, some (real 1)⟩), { stage with emitted := #[born] }⟩
  let third : Visit Exact := ⟨born, r, real (-1),
    some (child.withTiming ⟨.linear, real 5, some (real 1)⟩), ⟨born.sprite, r, #[]⟩⟩
  obtain ⟨fuel, hfuel⟩ : ∃ fuel, Scan.turnLimit = fuel + 1 + 1 + 1 + 1 := ⟨_, rfl⟩
  have h1 : Particle.visit Behavior.update 1 .idle r = .ok first := rfl
  have tick : (⟨0, 0 + 1⟩ : Window Exact) = ⟨real 0, real 1⟩ := by simp
  have h2 : Particle.visit Behavior.update 1 (.ofBehavior burst) r = .ok second := by
    let entered : Timing Exact := ⟨.linear, 0, some (real 1)⟩
    have enters : Timing.enter .instant ⟨real 0, real 1⟩ = .ok (true, entered) := by
      simp [Timing.enter, Timing.instant, Timing.ofLifespan, entered]
    have moments : Batch.moments ⟨1, 1, 1⟩ entered ⟨real 0, real 1⟩ = [0] := by
      simp [Batch.moments, Timing.progress, Easing.progress, Easing.ratio, Easing.curve,
        Scalar.floorNat, Exact.floorNat, Scalar.ofNat, entered]
    have answer : entered.verdict ⟨real 0, real 1⟩ = real 1 := by
      simp [Timing.verdict, entered]
    have update : burst.update ⟨real 0, real 1⟩ stage = .ok
        ⟨real 1, burst.withTiming entered, { stage with emitted := #[born] }⟩ := by
      refine Batch.update_eq_ok.2 ⟨true, entered, _, enters, ?_, by rw [answer]; rfl⟩
      rw [moments]
      rfl
    exact bind_eq_ok.2 ⟨_, (congrArg (burst.update · stage) tick).trans update, rfl⟩
  have h3 : Particle.visit Behavior.update 1 born r = .ok third := by
    let entered : Timing Exact := ⟨.linear, real 5, some (real 1)⟩
    have enters : Timing.enter (.ofLifespan (real 5)) ⟨real 0, real 1⟩ = .ok (true, entered) := by
      simp [Timing.enter, Timing.ofLifespan, entered]
    have answer : entered.verdict ⟨real 0, real 1⟩ = real (-1) := by
      simp [Timing.verdict, entered]
    have update : child.update ⟨real 0, real 1⟩ ⟨born.sprite, r, #[]⟩ = .ok
        ⟨real (-1), child.withTiming entered, ⟨born.sprite, r, #[]⟩⟩ := by
      show Effect.update _ .pause _ _ = _
      exact Effect.update_eq_ok.2 ⟨true, entered, enters, by rw [answer]; rfl⟩
    exact bind_eq_ok.2 ⟨_, (congrArg (child.update · _) tick).trans update, rfl⟩
  have s1 : Sweep.settle 1 ⟨0, f.particles, r, []⟩ first =
      ⟨0, #[.ofBehavior burst], r, [first]⟩ := by
    rw [Sweep.settle, if_pos (by simp [first])]
    rfl
  have s2 : Sweep.settle 1 ⟨0, #[.ofBehavior burst], r, [first]⟩ second =
      ⟨0, #[born], r, [first, second]⟩ := by
    rw [Sweep.settle, if_pos (by simp [second])]
    rfl
  have s3 : Sweep.settle 1 ⟨0, #[born], r, [first, second]⟩ third =
      ⟨1, #[third.after 1], r, [first, second, third]⟩ := by
    rw [Sweep.settle, if_neg (by simp [third])]
    rfl
  have run : f.updateBy Behavior.update 1 =
      .ok ({ f with particles := #[third.after 1] }, [first, second, third]) := by
    have turns : Sweep.run Behavior.update 1 (fuel + 1 + 1 + 1 + 1) ⟨0, f.particles, r, []⟩ =
        .ok ⟨1, #[third.after 1], r, [first, second, third]⟩ := by
      rw [Sweep.run_succ _ rfl h1, s1, Sweep.run_succ _ rfl h2, s2, Sweep.run_succ _ rfl h3, s3]
      rfl
    rw [updateBy, if_pos positive, hfuel]
    exact bind_eq_ok.2 ⟨_, turns, rfl⟩
  exact ⟨positive, same, _, _, run, accounts _ _ run, rfl, rfl⟩

/-- What answers that an undefined amount of time is left goes on as well. -/
theorem update_keeps_undefined :
    let f : Field Float :=
      (empty Settings.standard).add (.ofBehavior (.loop (Gen.constant .pause) .single))
    0 < (Scalar.infinity : Float) ∧
      ∃ g visits, f.updateBy Behavior.update Scalar.infinity = .ok (g, visits) ∧ g.size = 1 ∧
        (∀ v ∈ visits, ¬v.leftover < 0) ∧ g.particles.toList ≠
          (visits.filter fun v => v.leftover < 0).map (Visit.after Scalar.infinity) := by
  intro f
  let unknown : Float := Scalar.infinity - Scalar.infinity
  let r : Rng := .ofSeed Settings.standard.seed
  let p : Particle Float := .ofBehavior (.loop (Gen.constant .pause) .single)
  let stage : Stage Float := ⟨p.sprite, r, #[]⟩
  have window : (⟨0, 0 + Scalar.infinity⟩ : Window Float) = ⟨0, Scalar.infinity⟩ := rfl
  obtain ⟨b, hu⟩ : ∃ b, (Behavior.loop (Gen.constant .pause) .single).update
      ⟨0, 0 + Scalar.infinity⟩ stage = .ok ⟨unknown, b, stage⟩ :=
    ⟨_, (congrArg (Behavior.update _ · stage) window).trans (Behavior.loop_pause_update _ stage)⟩
  let turn : Visit Float := ⟨p, r, unknown, some b, stage⟩
  have visit : p.visit Behavior.update Scalar.infinity r = .ok turn := bind_eq_ok.2 ⟨_, hu, rfl⟩
  have settled : Sweep.settle Scalar.infinity ⟨0, f.particles, r, []⟩ turn =
      ⟨1, #[turn.after Scalar.infinity], r, [turn]⟩ := by
    rw [Sweep.settle, if_neg Scalar.not_infinity_sub_infinity_nonneg]
    rfl
  obtain ⟨fuel, hfuel⟩ : ∃ fuel, Scan.turnLimit = fuel + 1 + 1 := ⟨_, rfl⟩
  have run : f.updateBy Behavior.update Scalar.infinity =
      .ok ({ f with particles := #[turn.after Scalar.infinity] }, [turn]) := by
    have turns : Sweep.run Behavior.update Scalar.infinity (fuel + 1 + 1) ⟨0, f.particles, r, []⟩ =
        .ok ⟨1, #[turn.after Scalar.infinity], r, [turn]⟩ := by
      rw [Sweep.run_succ _ rfl visit, settled]
      rfl
    rw [updateBy, if_pos Scalar.Rounded.zero_lt_infinity, hfuel]
    exact bind_eq_ok.2 ⟨_, turns, rfl⟩
  have unsigned : ¬turn.leftover < 0 := Scalar.not_infinity_sub_infinity_neg
  refine ⟨Scalar.Rounded.zero_lt_infinity, _, _, run, rfl, by simpa using unsigned, ?_⟩
  rw [List.filter_cons_of_neg (decide_eq_false unsigned ▸ Bool.false_ne_true)]
  exact List.cons_ne_nil _ _

end Field

end ParticlePatterns
