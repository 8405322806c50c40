import ParticlePatterns.Behavior.Effect
import ParticlePatterns.Random

/-!
# Behaviors

A behavior is an effect on its own, a batch of children to emit, a chain of
behaviors one after another, or branches side by side. Bodies that are needed
more than once are generators: they make a fresh behavior for every position in
a batch, and may draw at random.
-/

set_option autoImplicit false

namespace ParticlePatterns

structure Sibling where
  index : Nat
  total : Nat
deriving DecidableEq, Repr

def Sibling.single : Sibling := ⟨0, 1⟩

abbrev Gen (α T : Type) : Type :=
  Sibling → Rng → Except (Fault α) (T × Rng)

namespace Gen

variable {α T U : Type}

def constant (value : T) : Gen α T :=
  fun _ r => .ok (value, r)

def bind (g : Gen α T) (next : T → Gen α U) : Gen α U :=
  fun s r => match g s r with
    | .ok (value, r) => next value s r
    | .error fault => .error fault

def mapFault (g : Gen α T) (f : T → Except (Fault α) U) : Gen α U :=
  g.bind fun value _ r => (f value).map (·, r)

def map (g : Gen α T) (f : T → U) : Gen α U :=
  g.bind fun value => constant (f value)

def all : List (Gen α T) → Gen α (List T)
  | [] => constant []
  | g :: rest => g.bind fun value => (all rest).map (value :: ·)

end Gen

/-- How many children are emitted: `count` at each of `times` moments, each of them `copies`
times. -/
structure Batch where
  count : Nat
  times : Nat
  copies : Nat
deriving DecidableEq, Repr

namespace Batch

def total (b : Batch) : Nat :=
  b.count * b.times * b.copies

def positions (b : Batch) (moment : Nat) : List Nat :=
  (List.range b.count).flatMap fun member =>
    (List.range b.copies).map fun copy => member + b.count * moment + b.times * b.count * copy

theorem length_positions (b : Batch) (moment : Nat) :
    (b.positions moment).length = b.count * b.copies := by
  simp [positions, List.length_flatMap, List.map_const']

/-- How many moments there can be room for: the list of positions of each takes 24 bytes,
below `2 ^ 63` bytes in all. -/
def maxTimes : Nat := 384307168202282325

/-- How many copies there can be room for: the position of each takes 8 bytes, below
`2 ^ 63` bytes in all. -/
def maxCopies : Nat := 1152921504606846975

/-- Why the positions of a batch cannot be listed as words of 64 bits. Room for all moments
is made first, room for the copies of a member behind the first position of a moment. That
memory may run out while the positions of a moment, or the particles of a field, grow in
number is left out. -/
def fault? {α : Type} (b : Batch) : Option (Fault α) :=
  let distance := b.times * b.count
  if maxTimes < b.times then some .noRoom
  else if UInt64.size ≤ distance then some .productOverflow
  else if 0 < distance ∧ maxCopies < b.copies then some .noRoom
  else if UInt64.size ≤ distance * (b.copies - 1) then some .productOverflow
  else if UInt64.size < b.total then some .sumOverflow
  else if UInt64.size = b.total then some .productOverflow
  else none

def Fits (b : Batch) : Prop :=
  b.times ≤ maxTimes ∧ b.times * b.count < UInt64.size ∧
    (0 < b.times * b.count → b.copies ≤ maxCopies) ∧ b.total < UInt64.size

instance (b : Batch) : Decidable b.Fits :=
  inferInstanceAs (Decidable (_ ∧ _))

theorem fault?_eq_none_iff {α : Type} (b : Batch) : b.fault? (α := α) = none ↔ b.Fits := by
  have product : b.times * b.count * (b.copies - 1) ≤ b.total := by
    rw [total, Nat.mul_comm b.count]
    exact Nat.mul_le_mul_left _ (Nat.sub_le _ _)
  simp only [fault?, Fits]
  grind

end Batch

mutual
inductive Behavior (α : Type) : Type
  | leaf (timing : Timing α) (effect : Effect α)
  | emit (timing : Timing α) (batch : Batch)
      (body : Sibling → Rng → Except (Fault α) (Behavior α × Rng))
  /-- Local time 0 of the current behavior is `offset` in local time of the chain. It is
  `fresh` until its first window. -/
  | chain (timing : Timing α) (supply : Supply α) (current : Option (Behavior α)) (offset : α)
      (fresh : Bool)
  /-- Every branch with the time when it was complete. -/
  | parallel (timing : Timing α) (branches : List (Behavior α × Option α))
inductive Supply (α : Type) : Type
  /-- The same body over and over, or as often as `remaining` says. -/
  | body (body : Sibling → Rng → Except (Fault α) (Behavior α × Rng)) (sibling : Sibling)
      (remaining : Option Nat)
  | list (rest : List (Behavior α))
end

namespace Behavior

variable {α : Type}

def timing : Behavior α → Timing α
  | leaf timing _ => timing
  | emit timing _ _ => timing
  | chain timing _ _ _ _ => timing
  | parallel timing _ => timing

def withTiming (b : Behavior α) (timing : Timing α) : Behavior α :=
  match b with
  | leaf _ effect => leaf timing effect
  | emit _ batch body => emit timing batch body
  | chain _ supply current offset fresh => chain timing supply current offset fresh
  | parallel _ branches => parallel timing branches

@[simp] theorem timing_withTiming (b : Behavior α) (timing : Timing α) :
    (b.withTiming timing).timing = timing := by
  cases b <;> rfl

@[simp] theorem withTiming_timing (b : Behavior α) : b.withTiming b.timing = b := by
  cases b <;> rfl

variable [Scalar α]

def setEasing (b : Behavior α) (easing : Easing) : Except (Fault α) (Behavior α) :=
  (b.timing.setEasing easing).map b.withTiming

def setLifespan (b : Behavior α) (lifespan : α) : Except (Fault α) (Behavior α) :=
  (b.timing.setLifespan lifespan).map b.withTiming

def ofEffect (e : Effect α) : Behavior α :=
  leaf .instant e

def pause : Behavior α := ofEffect .pause

def modify (property : Property) (how : Modification) (operand : α) : Behavior α :=
  ofEffect (.modify property how operand 0)

def switch (action : Action) : Behavior α :=
  ofEffect (.switch action false)

def translate (offset : Vec3 α) : Behavior α :=
  ofEffect (.translate offset)

def rotate (degrees : Vec3 α) : Behavior α :=
  ofEffect (.rotate degrees)

def emission (batch : Batch) (body : Gen α (Behavior α)) : Except (Fault α) (Behavior α) :=
  match batch.fault? with
  | some fault => .error fault
  | none => .ok (emit .instant batch body)

def ofSupply (supply : Supply α) : Behavior α :=
  chain .unbounded supply none 0 true

def loop (body : Gen α (Behavior α)) (sibling : Sibling) : Behavior α :=
  ofSupply (.body body sibling none)

def repetition (body : Gen α (Behavior α)) (sibling : Sibling) (limit : Nat) : Behavior α :=
  ofSupply (.body body sibling (some limit))

def sequence (behaviors : List (Behavior α)) : Behavior α :=
  ofSupply (.list behaviors)

def together (behaviors : List (Behavior α)) : Behavior α :=
  parallel .unbounded (behaviors.map (·, none))

end Behavior

structure Particle (α : Type) where
  sprite : Sprite α
  lifeTime : α
  behavior : Option (Behavior α)

namespace Particle

variable {α : Type} [Scalar α]

def idle : Particle α :=
  ⟨.initial, 0, none⟩

def ofBehavior (b : Behavior α) : Particle α :=
  { (idle : Particle α) with behavior := some b }

def spawnedBy (parent : Sprite α) (b : Behavior α) : Particle α :=
  ⟨parent.child, 0, some b⟩

end Particle

end ParticlePatterns
