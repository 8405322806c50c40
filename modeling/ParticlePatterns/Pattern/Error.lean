import ParticlePatterns.Term.Printer

/-!
# Compile errors

Why a program that can be read does not mean anything.
-/

set_option autoImplicit false

namespace ParticlePatterns

inductive Arity
  /-- What is complete in itself takes no arguments. -/
  | never
  | exactly (count : Nat)
  | atLeast (count : Nat)
deriving DecidableEq, Repr

inductive Kind
  | number
  | model
  | behavior
deriving DecidableEq, Repr

inductive CompileError (α : Type)
  | unknownIdentifier (name : String)
  | arity (operator : String) (expected : Arity) (got : Nat)
  | kind (expected : Kind) (found : String)
  | emptyList
  | malformedBlock (track : Term α)
deriving Repr

def Arity.text : Arity → String
  | never => "no"
  | exactly count => toString count
  | atLeast count => "at least " ++ toString count

def Kind.text : Kind → String
  | number => "a number"
  | model => "a model"
  | behavior => "a behavior"

def CompileError.message {α : Type} [Numeral α] : CompileError α → String
  | unknownIdentifier name => "unknown identifier `" ++ name ++ "`"
  | arity operator expected got =>
      "`" ++ operator ++ "` takes " ++ expected.text ++ " argument(s), got " ++ toString got
  | kind expected found => "expected " ++ expected.text ++ ", found " ++ found
  | emptyList => "an empty list cannot be evaluated"
  | malformedBlock track =>
      "block branches must be programs, found `" ++ String.ofList track.display ++ "`"

end ParticlePatterns
