import ParticlePatterns.Parsing.Recogniser

/-!
# Filler

Blanks and comments between tokens. Line comments run from `//` to the end of the
line; where a comment that starts with `/*` ends is up to the language, and one that
does not end is not filler.
-/

set_option autoImplicit false

namespace ParticlePatterns.Parsing

open Recogniser (runLength)

def notNewline (c : Char) : Bool :=
  c != '\n'

structure Filler where
  blank : Char → Bool
  /-- How many characters a comment takes after its first two. -/
  comment : Recogniser

namespace Filler

def pieceLength? (f : Filler) : List Char → Option Nat
  | '/' :: '*' :: rest => (f.comment rest).map (· + 2)
  | '/' :: '/' :: rest => some (runLength notNewline rest + 2)
  | c :: _ => if f.blank c then some 1 else none
  | [] => none

/-- Length of the longest chain of blanks and comments. The first argument counts the
characters still to pass of the piece already found. -/
def lengthFrom (f : Filler) : Nat → List Char → Nat
  | _, [] => 0
  | inside + 1, _ :: rest => f.lengthFrom inside rest + 1
  | 0, c :: rest => match f.pieceLength? (c :: rest) with
    | some n => f.lengthFrom (n - 1) rest + 1
    | none => 0

def recogniser (f : Filler) : Recogniser :=
  fun text => some (f.lengthFrom 0 text)

end Filler

def commentEnd (accepts : Char → Bool) : Recogniser
  | '*' :: '/' :: _ => some 2
  | c :: rest => if accepts c then (commentEnd accepts rest).map (· + 1) else none
  | [] => none

def nestedCommentEnd : Nat → Recogniser
  | inner, '/' :: '*' :: rest => (nestedCommentEnd (inner + 1) rest).map (· + 2)
  | 0, '*' :: '/' :: _ => some 2
  | inner + 1, '*' :: '/' :: rest => (nestedCommentEnd inner rest).map (· + 2)
  | inner, _ :: rest => (nestedCommentEnd inner rest).map (· + 1)
  | _, [] => none

end ParticlePatterns.Parsing
