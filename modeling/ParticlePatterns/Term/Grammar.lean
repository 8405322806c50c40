import ParticlePatterns.Number.Numeral
import ParticlePatterns.Parsing.Combinator
import ParticlePatterns.Term.Basic
import ParticlePatterns.Term.Token

/-!
# Grammar of the pattern language

    list      = '(' filler (term filler)* ')'
    each      = '[' filler ( ']' | term filler ( range | (term filler)* ']' ) )
    range     = '..' filler term filler ']'
    random    = each, with '<' and '>'
    block     = '{' program ('|' program)* '}'
    term      = number | symbol | list | each | random | block
    statement = (term lineFiller)+ (';' lineFiller)*
    program   = filler (statement filler)*

The rules below term are written over a parser for terms, and the recursion is
closed once, by `term`.
-/

set_option autoImplicit false

namespace ParticlePatterns

namespace Grammar

open Parsing
open Parsing.Parser (string pattern choice many many1 eof fix)

def filler : Parser String :=
  pattern Token.filler "whitespace"

def lineFiller : Parser String :=
  pattern Token.lineFiller "whitespace"

def number {ν : Type} [Numeral ν] : Parser (Term ν) :=
  fun here => match pattern Token.number "number" here with
    | .ok text there => match Numeral.read? text.toList with
      | some value => .ok (.number value) there
      | none => .fail (here.expected "finite number") there
    | .fail failure stop => .fail failure stop
    | .exhausted => .exhausted

def symbol {ν : Type} : Parser (Term ν) :=
  (pattern Token.symbol "symbol").map .symbol

section Rules

variable {ν : Type} (term : Parser (Term ν))

def listOf : Parser (Term ν) :=
  (((string "(").andThen filler).andThen (many (term.skip filler))).skip (string ")")
    |>.map .list

def rangeOf (shape : Bracket) (first : Term ν) : Parser (Term ν) :=
  ((((string "..").andThen filler).andThen term).skip filler).skip (string shape.right)
    |>.map fun last => .list [.symbol shape.range, first, last]

def choiceOf (shape : Bracket) (first : Term ν) : Parser (Term ν) :=
  (many (term.skip filler)).skip (string shape.right)
    |>.map fun rest => .list (.symbol shape.choice :: first :: rest)

def bracketOf (shape : Bracket) : Parser (Term ν) :=
  let empty := (string shape.right).map fun _ => .symbol shape.angle
  let filled := (term.skip filler).bind fun first =>
    choice [rangeOf term shape first, choiceOf term shape first]
  ((string shape.left).andThen filler).andThen (choice [empty, filled])

def statementOf : Parser (Term ν) :=
  ((many1 (term.skip lineFiller)).skip (many ((string ";").skip lineFiller))).map fun
    | [single] => single
    | terms => .list terms

def programOf : Parser (Program ν) :=
  filler.andThen (many ((statementOf term).skip filler))

def blockOf : Parser (Term ν) :=
  let track := (programOf term).map .list
  (((string "\x7b").andThen track).bind fun first =>
      (many ((string "|").andThen track)).map fun rest =>
        .list (.symbol Term.blockHead :: first :: rest)).skip (string "\x7d")

end Rules

variable {ν : Type} [Numeral ν]

def termOf (inner : Parser (Term ν)) : Parser (Term ν) :=
  (choice [number, symbol, listOf inner, bracketOf inner .each, bracketOf inner .random,
    blockOf inner]).label "term"

def term : Parser (Term ν) := fix termOf

def list : Parser (Term ν) := listOf term

def each : Parser (Term ν) := bracketOf term .each

def random : Parser (Term ν) := bracketOf term .random

def block : Parser (Term ν) := blockOf term

def statement : Parser (Term ν) := statementOf term

def program : Parser (Program ν) := programOf term

def wholeProgram : Parser (Program ν) :=
  program.skip eof

def wholeTerm : Parser (Term ν) :=
  ((filler.andThen term).skip filler).skip eof

end Grammar

variable {ν : Type} [Numeral ν]

def Program.parse (text : String) : Except Parsing.Failure (Program ν) :=
  Grammar.wholeProgram.parse text

def Term.parse (text : String) : Except Parsing.Failure (Term ν) :=
  Grammar.wholeTerm.parse text

end ParticlePatterns
