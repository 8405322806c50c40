import Mathlib
import ParticlePatterns.Proofs.Behavior.Wrapping
import ParticlePatterns.Proofs.Pattern.Instantiation

/-!
# Blocks of one statement

A block around a single statement is made into one branch with one sequence of the one behavior
that the statement stands for, drawn from the same random state. Both are transparent, so the
block may as well be left out.
-/

set_option autoImplicit false

namespace ParticlePatterns

theorem mapM_singleton {ε T U : Type} (f : T → Except ε U) (x : T) :
    [x].mapM f = (f x).map ([·]) := by
  rw [List.mapM_cons]
  cases f x <;> rfl

section Compiling

variable {α : Type} [Scalar α]

def Term.inBlock {ν : Type} (statement : Term ν) : Term ν :=
  .list [.symbol blockHead, .list [statement]]

def Behavior.inBlock (b : Behavior α) : Behavior α :=
  .together [.sequence [b]]

/-- A track of one statement is a sequence of one behavior. -/
theorem Argument.track_singleton {a : Argument α} {statement : Term α}
    (h : a.elements = some [⟨fun _ => statement.meaning⟩]) : a.track =
      statement.behavior.map fun gen => gen.map fun b => .sequence [b] := by
  rw [track, h]
  show ([_].mapM _ >>= _ : Except _ _) = _
  rw [mapM_singleton]
  show statement.behavior.map _ >>= _ = _
  cases statement.behavior with
  | error e => rfl
  | ok gen => exact congrArg Except.ok (Gen.map_map gen _ _)

theorem Term.behavior_inBlock (statement : Term α) :
    statement.inBlock.behavior = statement.behavior.map fun gen => gen.map .inBlock := by
  have block : (symbol blockHead : Term α).meaning = .ok (.operator .block) := rfl
  obtain ⟨a, ha, elements⟩ : ∃ a, arguments [.list [statement]] = [a] ∧
      a.elements = some [⟨fun _ => statement.meaning⟩] := ⟨_, rfl, rfl⟩
  have track := Argument.track_singleton elements
  rw [inBlock, behavior, meaning, block, ha]
  show (Operator.block.apply [a] >>= _ : Except _ _) = _
  show (([a].mapM _ >>= _ : Except _ _) >>= _ : Except _ _) = _
  rw [mapM_singleton, track]
  cases statement.behavior with
  | error e => rfl
  | ok gen =>
    show Except.ok ((Gen.all [_]).map _) = Except.ok _
    rw [Gen.all_singleton, Gen.map_map, Gen.map_map]
    rfl

end Compiling

open Exact (real)

/-- Wrapping one behavior is transparent, whatever it is made of: a sequence of it, or a single
branch, leave every stage as it does and give the same answers in all windows up to its
completion, and hand all windows behind it back. So a block may be left out around a single
statement: it compiles to what the statement compiles to, or fails to compile in the same way,
and draws what the statement draws. -/
theorem wrapping_transparent :
    (∀ (flaw : Fault Exact → Prop) (b : Behavior Exact), b.Pristine flaw →
      (Behavior.sequence [b]).StandsFor b ∧ (Behavior.together [b]).StandsFor b) ∧
    ∀ statement : Term Exact,
      statement.inBlock.behavior = (statement.behavior.map fun gen => gen.map .inBlock) ∧
      ∀ gen b, statement.behavior = .ok gen → gen.Gives b → b.inBlock.StandsFor b := by
  have single : ∀ (flaw : Fault Exact → Prop) (b : Behavior Exact), b.Pristine flaw →
      (Behavior.sequence [b]).StandsFor b ∧ (Behavior.together [b]).StandsFor b :=
    fun _ b hb => ⟨(Wraps.of_sequence b).standsFor hb, (Wraps.of_together b).standsFor hb⟩
  refine ⟨single, fun statement => ⟨statement.behavior_inBlock, fun gen b compiled given => ?_⟩⟩
  have pristine : b.Pristine fun _ => True :=
    (Term.behavior_yields (fun _ _ => trivial) compiled).value b given
  have sequence : (Behavior.sequence [b]).Pristine fun _ => True :=
    Behavior.pristine_sequence (by simpa using pristine)
  exact (single _ _ sequence).2.trans (single _ b pristine).1

/-- A pause of one unit, in windows that end in the middle of it and behind it, and a statement
with a body of its own. -/
theorem wrapping_transparent_pause :
    let b : Behavior Exact := .pauseFor 1
    let runs (stage : Stage Exact) : List (Window Exact × Stage Exact) :=
      [(⟨real 0, real (1 / 2)⟩, stage), (⟨real (1 / 2), real 3⟩, stage)]
    let loop : Term Exact := .list [.symbol "loop", .symbol "nop"]
    ∀ stage, Contiguous 0 ((runs stage).map Prod.fst) ∧
      (Behavior.sequence [b]).answersToEnd (runs stage) = b.answersToEnd (runs stage) ∧
      ∃ gen c, loop.behavior = .ok gen ∧ gen.Gives c ∧
        c.inBlock.answersToEnd (runs stage) = c.answersToEnd (runs stage) := by
  intro b runs loop stage
  have contiguous : Contiguous 0 ((runs stage).map Prod.fst) :=
    ⟨1 / 2, by norm_num, rfl, 3, by norm_num, rfl, trivial⟩
  obtain ⟨behaviors, statements⟩ := wrapping_transparent
  obtain ⟨gen, compiled, c, given⟩ : ∃ gen, loop.behavior = .ok gen ∧ ∃ c, gen.Gives c :=
    ⟨_, rfl, _, .single, stage.rng, _, rfl⟩
  have fresh : b.Pristine fun _ => False := Behavior.pristine_pauseFor zero_le_one
  exact ⟨contiguous, ((behaviors _ b fresh).1 _ contiguous).1, gen, c, compiled, given,
    ((statements loop).2 gen c compiled given _ contiguous).1⟩

end ParticlePatterns
