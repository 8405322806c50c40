import ParticlePatterns.Field.Basic
import ParticlePatterns.Pattern.Compile
import ParticlePatterns.Term.Grammar

/-!
# Patterns

A pattern is a program together with the behaviors it generates. It is made from
source text, and every way this can fail is told apart.
-/

set_option autoImplicit false

namespace ParticlePatterns

structure Pattern (α : Type) where
  program : Program α
  gen : Gen α (Behavior α)

inductive PatternError (α : Type)
  /-- The text could not be had at all. -/
  | unreadable (reason : String)
  | parse (failure : Parsing.Failure)
  | compile (error : CompileError α)

namespace PatternError

variable {α : Type} [Numeral α]

def reason : PatternError α → String
  | unreadable reason => reason
  | parse failure => failure.message
  | compile error => error.message

def message (e : PatternError α) : String :=
  match e with
  | unreadable _ => "IO error: " ++ e.reason
  | parse _ => "Parse error: " ++ e.reason
  | compile _ => "Compile error: " ++ e.reason

end PatternError

namespace Pattern

variable {α : Type} [Scalar α] [Numeral α]

def ofSource (text : String) : Except (PatternError α) (Pattern α) :=
  match Program.parse text with
  | .error failure => .error (.parse failure)
  | .ok program => match Program.compile program with
    | .error error => .error (.compile error)
    | .ok gen => .ok ⟨program, gen⟩

def spawnInto (p : Pattern α) (f : Field α) : Except (Fault α) (Field α) :=
  f.spawn p.gen

end Pattern

end ParticlePatterns
