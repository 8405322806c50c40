import ParticlePatterns.Behavior.Basic

/-!
# Driving behaviors

`Behavior.update` answers one window. It changes the sprite, draws from the random
state and emits children, all of which make up the stage. The parts of a behavior
are first made *awake*, each with its own update, and then run by functions that
know nothing of how they are built.
-/

set_option autoImplicit false

namespace ParticlePatterns

structure Stage (α : Type) where
  sprite : Sprite α
  rng : Rng
  emitted : Array (Particle α)

structure Reply (α : Type) where
  /-- Negative while incomplete, else the time not used up. -/
  leftover : α
  behavior : Behavior α
  stage : Stage α

abbrev Update (α : Type) : Type :=
  Window α → Stage α → Except (Fault α) (Reply α)

structure Awake (α : Type) where
  behavior : Behavior α
  update : Update α

inductive Feed (α : Type)
  | body (make : Gen α (Behavior α)) (sibling : Sibling) (remaining : Option Nat)
      (draw : Rng → Except (Fault α) (Awake α × Rng))
  | list (rest : List (Awake α))

namespace Feed

variable {α : Type}

def toSupply : Feed α → Supply α
  | .body make sibling remaining _ => .body make sibling remaining
  | .list rest => .list (rest.map Awake.behavior)

def next (f : Feed α) (r : Rng) : Except (Fault α) (Option (Awake α) × Feed α × Rng) :=
  match f with
  | .list [] => .ok (none, f, r)
  | .list (b :: rest) => .ok (some b, .list rest, r)
  | .body _ _ none draw => (draw r).map fun (b, r) => (some b, f, r)
  | .body _ _ (some 0) _ => .ok (none, f, r)
  | .body make sibling (some (n + 1)) draw =>
      (draw r).map fun (b, r) => (some b, .body make sibling (some n) draw, r)

end Feed

structure Chain (α : Type) where
  feed : Feed α
  current : Option (Awake α)
  offset : α
  fresh : Bool

namespace Chain

variable {α : Type} [Scalar α]

def stepLimit : Nat := 100

def reply (c : Chain α) (timing : Timing α) (current : Option (Behavior α)) (leftover : α)
    (stage : Stage α) : Reply α :=
  ⟨leftover, .chain timing c.feed.toSupply current c.offset c.fresh, stage⟩

/-- Drive one behavior after another from the time `now` on. The window of the current
one ends at `stop`. A behavior always starts at its local time 0, also when it is
started late. -/
def run (timing : Timing α) (w : Window α) (stop : α) :
    Nat → α → Chain α → Stage α → Except (Fault α) (Reply α)
  | 0, _, c, stage =>
      .ok (c.reply timing (c.current.map Awake.behavior) (timing.verdict w) stage)
  | steps + 1, now, c, stage =>
      match c.current with
      | none => .ok (c.reply timing none (w.stop - now) stage)
      | some child => do
          let start := if c.fresh then 0 else now - c.offset
          let answer ← child.update ⟨start, stop - c.offset⟩ stage
          if answer.leftover < 0 then
            pure ({ c with fresh := false }.reply timing answer.behavior (timing.verdict w)
              answer.stage)
          else
            let now := Scalar.max (stop - answer.leftover) now
            let (next, feed, rng) ← c.feed.next answer.stage.rng
            let stage := { answer.stage with rng }
            let c : Chain α := ⟨feed, next, now, true⟩
            match next with
            | none => pure (c.reply timing none (w.stop - now) stage)
            | some child =>
                if stop ≤ now then
                  pure (c.reply timing child.behavior (timing.verdict w) stage)
                else run timing w stop steps now c stage

def update (timing : Timing α) (c : Chain α) : Update α :=
  fun w stage => do
    let (first, timing) ← timing.enter w
    let stop := w.stopWithin timing.lifespan
    if first then
      let (current, feed, rng) ← c.feed.next stage.rng
      run timing w stop stepLimit w.start ⟨feed, current, 0, true⟩ { stage with rng }
    else run timing w stop stepLimit w.start c stage

end Chain

namespace Batch

variable {α : Type} [Scalar α]

def moments (b : Batch) (timing : Timing α) (w : Window α) : List Nat :=
  let times : α := Scalar.ofNat b.times
  let passed := Scalar.floorNat (timing.progress w.start * times)
  let reached := Nat.min (Scalar.floorNat (timing.progress w.stop * times)) b.times
  List.range' passed (reached - passed)

def spawn (total : Nat) (body : Gen α (Behavior α)) :
    List Nat → Stage α → Except (Fault α) (Stage α)
  | [], stage => .ok stage
  | index :: rest, stage => do
      let (b, rng) ← body ⟨index, total⟩ stage.rng
      let child := Particle.spawnedBy stage.sprite b
      spawn total body rest { stage with rng, emitted := stage.emitted.push child }

def update (timing : Timing α) (b : Batch) (body : Gen α (Behavior α)) : Update α :=
  fun w stage => do
    let (_, timing) ← timing.enter w
    let stage ← spawn b.total body ((b.moments timing w).flatMap b.positions) stage
    pure ⟨timing.verdict w, .emit timing b body, stage⟩

end Batch

namespace Branch

variable {α : Type} [Scalar α]

structure Result (α : Type) where
  latest : α
  complete : Bool
  branches : List (Behavior α × Option α)
  stage : Stage α

def run (start stop : α) :
    List (Awake α × Option α) → α → Bool → Stage α → Except (Fault α) (Result α)
  | [], latest, complete, stage => .ok ⟨latest, complete, [], stage⟩
  | (b, some time) :: rest, latest, complete, stage => do
      let result ← run start stop rest (Scalar.max latest time) complete stage
      pure { result with branches := (b.behavior, some time) :: result.branches }
  | (b, none) :: rest, latest, complete, stage => do
      let answer ← b.update ⟨start, stop⟩ stage
      if answer.leftover < 0 then
        let result ← run start stop rest latest false answer.stage
        pure { result with branches := (answer.behavior, none) :: result.branches }
      else
        let time := stop - answer.leftover
        let result ← run start stop rest (Scalar.max latest time) complete answer.stage
        pure { result with branches := (answer.behavior, some time) :: result.branches }

def update (timing : Timing α) (branches : List (Awake α × Option α)) : Update α :=
  fun w stage => do
    let (_, timing) ← timing.enter w
    let result ← run w.start (w.stopWithin timing.lifespan) branches w.start true stage
    let leftover := if result.complete then w.stop - result.latest else timing.verdict w
    pure ⟨leftover, .parallel timing result.branches, result.stage⟩

end Branch

namespace Effect

variable {α : Type} [Scalar α]

def update (timing : Timing α) (e : Effect α) : Update α :=
  fun w stage => do
    let (first, timing) ← timing.enter w
    let (e, sprite) := e.apply timing first w stage.sprite
    pure ⟨timing.verdict w, .leaf timing e, { stage with sprite }⟩

end Effect

section Waking

variable {α : Type} [Scalar α]

mutual
def Behavior.update : Behavior α → Update α
  | .leaf timing effect => effect.update timing
  | .emit timing batch body => batch.update timing body
  | .chain timing supply current offset fresh =>
      Chain.update timing ⟨Supply.wake supply, Behavior.wakeSome current, offset, fresh⟩
  | .parallel timing branches => Branch.update timing (Behavior.wakeBranches branches)
def Supply.wake : Supply α → Feed α
  | .body body sibling remaining =>
      .body body sibling remaining fun r => Behavior.wakeDrawn (body sibling r)
  | .list rest => .list (Behavior.wakeAll rest)
def Behavior.wakeSome : Option (Behavior α) → Option (Awake α)
  | none => none
  | some b => some ⟨b, b.update⟩
def Behavior.wakeAll : List (Behavior α) → List (Awake α)
  | [] => []
  | b :: rest => ⟨b, b.update⟩ :: Behavior.wakeAll rest
def Behavior.wakeBranches : List (Behavior α × Option α) → List (Awake α × Option α)
  | [] => []
  | (b, time) :: rest => (⟨b, b.update⟩, time) :: Behavior.wakeBranches rest
def Behavior.wakeDrawn :
    Except (Fault α) (Behavior α × Rng) → Except (Fault α) (Awake α × Rng)
  | .error fault => .error fault
  | .ok (b, r) => .ok (⟨b, b.update⟩, r)
end

def Behavior.wake (b : Behavior α) : Awake α :=
  ⟨b, b.update⟩

theorem Behavior.wakeSome_eq_map (b : Option (Behavior α)) :
    Behavior.wakeSome b = b.map Behavior.wake := by
  cases b <;> simp [Behavior.wakeSome, Behavior.wake]

theorem Behavior.wakeAll_eq_map (bs : List (Behavior α)) :
    Behavior.wakeAll bs = bs.map Behavior.wake := by
  induction bs with
  | nil => rfl
  | cons b bs ih => simp [Behavior.wakeAll, Behavior.wake, ih]

theorem Behavior.wakeBranches_eq_map (bs : List (Behavior α × Option α)) :
    Behavior.wakeBranches bs = bs.map fun b => (b.1.wake, b.2) := by
  induction bs with
  | nil => rfl
  | cons b bs ih => simp [Behavior.wakeBranches, Behavior.wake, ih]

end Waking

end ParticlePatterns
