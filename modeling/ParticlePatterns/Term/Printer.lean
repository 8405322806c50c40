import ParticlePatterns.Number.Numeral
import ParticlePatterns.Term.Basic

/-!
# Printing terms

Statements go one per line or are parted by semicolons; bracket forms are used
where a list has one, or lists are written out. A statement of several terms
needs no parentheses when bracket forms are used.
-/

set_option autoImplicit false

namespace ParticlePatterns

structure PrintStyle where
  /-- One statement a line, and blocks over several lines. -/
  indent : Bool
  /-- Bracket forms in place of lists with a reserved head. -/
  sugar : Bool
deriving DecidableEq, Repr

namespace PrintStyle

def standard : PrintStyle := ⟨true, true⟩

def compact : PrintStyle := ⟨false, true⟩

end PrintStyle

namespace Printer

variable {ν : Type}

inductive Form
  | plain
  | choice (shape : Bracket)
  | range (shape : Bracket)
  | block
deriving DecidableEq, Repr

def formFor (head : String) (args : List (Term ν)) : Form :=
  if head = Bracket.each.choice then if args.isEmpty then .plain else .choice .each
  else if head = Bracket.random.choice then if args.isEmpty then .plain else .choice .random
  else if head = Bracket.each.range then if args.length = 2 then .range .each else .plain
  else if head = Bracket.random.range then if args.length = 2 then .range .random else .plain
  else if head = Term.blockHead then
    if args.isEmpty || !args.all Term.isList then .plain else .block
  else .plain

def formOf (elements : List (Term ν)) : Form :=
  match elements with
  | .symbol head :: args => formFor head args
  | _ => .plain

def newline (depth : Nat) : List Char :=
  '\n' :: List.replicate (2 * depth) ' '

def statementBreak (o : PrintStyle) (depth : Nat) : List Char :=
  if o.indent then newline depth else [';', ' ']

def trackText (o : PrintStyle) (depth : Nat) (statements : List (List Char)) : List Char :=
  if o.indent then statements.flatMap fun text => newline (depth + 1) ++ text
  else if statements.isEmpty then []
  else ' ' :: (statementBreak o depth).intercalate statements

def trackBreak (o : PrintStyle) (depth : Nat) : List Char :=
  if o.indent then newline depth else [' ']

def blockText (o : PrintStyle) (depth : Nat) (tracks : List (List (List Char))) : List Char :=
  '\x7b' :: (trackBreak o depth ++ ['|']).intercalate (tracks.map (trackText o depth))
    ++ trackBreak o depth ++ ['\x7d']

def symbolText (o : PrintStyle) (name : String) : List Char :=
  if o.sugar && name = Bracket.each.angle then (Bracket.each.left ++ Bracket.each.right).toList
  else if o.sugar && name = Bracket.random.angle then
    (Bracket.random.left ++ Bracket.random.right).toList
  else name.toList

def standsBare (o : PrintStyle) (asStatement : Bool) (elements : List (Term ν)) : Bool :=
  asStatement && o.sugar && decide (1 < elements.length)

mutual
def termText [Numeral ν] (o : PrintStyle) (asStatement : Bool) (depth : Nat) :
    Term ν → List Char
  | .number value => Numeral.write value
  | .symbol name => symbolText o name
  | .list elements =>
      match elements, if o.sugar then formOf elements else .plain with
      | _ :: args, .choice shape =>
          shape.left.toList ++ [' '].intercalate (termTexts o false depth args)
            ++ shape.right.toList
      | _ :: bounds, .range shape =>
          shape.left.toList ++ ['.', '.'].intercalate (termTexts o false depth bounds)
            ++ shape.right.toList
      | _ :: tracks, .block => blockText o depth (trackTexts o (depth + 1) tracks)
      | elements, _ =>
          let inside := [' '].intercalate (termTexts o false depth elements)
          if standsBare o asStatement elements then inside else '(' :: inside ++ [')']
def termTexts [Numeral ν] (o : PrintStyle) (asStatement : Bool) (depth : Nat) :
    List (Term ν) → List (List Char)
  | [] => []
  | t :: rest => termText o asStatement depth t :: termTexts o asStatement depth rest
def trackTexts [Numeral ν] (o : PrintStyle) (depth : Nat) :
    List (Term ν) → List (List (List Char))
  | [] => []
  | .list statements :: rest => termTexts o true depth statements :: trackTexts o depth rest
  | _ :: rest => [] :: trackTexts o depth rest
end

theorem termTexts_eq_map [Numeral ν] (o : PrintStyle) (asStatement : Bool) (depth : Nat)
    (ts : List (Term ν)) :
    termTexts o asStatement depth ts = ts.map (termText o asStatement depth) := by
  induction ts with
  | nil => simp [termTexts]
  | cons t ts ih => simp [termTexts, ih]

theorem trackTexts_eq_map [Numeral ν] (o : PrintStyle) (depth : Nat) (ts : List (Term ν)) :
    trackTexts o depth ts
      = ts.map fun t => (t.elements?.getD []).map (termText o true depth) := by
  induction ts with
  | nil => simp [trackTexts]
  | cons t ts ih => cases t <;> simp [trackTexts, termTexts_eq_map, Term.elements?, ih]

end Printer

section

variable {ν : Type} [Numeral ν]

def Term.print (o : PrintStyle) (t : Term ν) : List Char :=
  Printer.termText o false 0 t

def Program.print (o : PrintStyle) (p : Program ν) : List Char :=
  (Printer.statementBreak o 0).intercalate (Printer.termTexts o true 0 p)

def Term.display (t : Term ν) : List Char :=
  t.print .compact

def Program.display (p : Program ν) : List Char :=
  Program.print .standard p

end

end ParticlePatterns
