/-!
# Recognisers

A recogniser says how many characters at the start of a text belong to its
token, or that none of its tokens starts there.
-/

set_option autoImplicit false

namespace ParticlePatterns.Parsing

def Recogniser : Type := List Char → Option Nat

namespace Recogniser

def runLength (accepts : Char → Bool) (text : List Char) : Nat :=
  (text.takeWhile accepts).length

theorem take_runLength (accepts : Char → Bool) (text : List Char) :
    text.take (runLength accepts text) = text.takeWhile accepts := by
  induction text with
  | nil => rfl
  | cons c rest ih =>
    by_cases h : accepts c <;> simp_all [runLength]

theorem drop_runLength (accepts : Char → Bool) (text : List Char) :
    text.drop (runLength accepts text) = text.dropWhile accepts := by
  induction text with
  | nil => rfl
  | cons c rest ih =>
    by_cases h : accepts c <;> simp_all [runLength]

def run (accepts : Char → Bool) : Recogniser :=
  fun text => some (runLength accepts text)

def someRun (accepts : Char → Bool) : Recogniser :=
  fun text => match runLength accepts text with
    | 0 => none
    | n => some n

def literal (text : List Char) : Recogniser :=
  fun rest => if text.isPrefixOf rest then some text.length else none

def orElse (first second : Recogniser) : Recogniser :=
  fun text => match first text with
    | some n => some n
    | none => second text

def longer (first second : Recogniser) : Recogniser :=
  fun text => match first text, second text with
    | some m, some n => some (max m n)
    | some m, none => some m
    | none, found => found

def isWhole (r : Recogniser) (text : List Char) : Bool :=
  r text = some text.length

theorem isWhole_iff (r : Recogniser) (text : List Char) :
    r.isWhole text = true ↔ r text = some text.length := by
  simp [isWhole]

end Recogniser

end ParticlePatterns.Parsing
