import ParticlePatterns.Parsing.Filler

/-!
# Tokens of the pattern language

Filler is blanks, comments from `/*` to the first `*/`, and comments from `//`
to the end of the line. On one line, blanks are spaces and tabs and a bracketed
comment must not contain a newline. An unclosed comment is not filler.
-/

set_option autoImplicit false

namespace ParticlePatterns.Token

open Parsing (Filler Recogniser commentEnd notNewline)
open Parsing.Recogniser (runLength)

def filler : Recogniser :=
  Filler.recogniser
    ⟨fun c => c = ' ' || c = '\t' || c = '\r' || c = '\n', commentEnd fun _ => true⟩

def lineFiller : Recogniser :=
  Filler.recogniser ⟨fun c => c = ' ' || c = '\t', commentEnd notNewline⟩

def signLength : List Char → Nat
  | '+' :: _ => 1
  | '-' :: _ => 1
  | _ => 0

def fractionLength : List Char → Nat
  | '.' :: rest => match runLength Char.isDigit rest with
    | 0 => 0
    | n => n + 1
  | _ => 0

def exponentLength : List Char → Nat
  | mark :: rest =>
      if mark = 'e' ∨ mark = 'E' then
        let sign := signLength rest
        match runLength Char.isDigit (rest.drop sign) with
        | 0 => 0
        | n => sign + n + 1
      else 0
  | [] => 0

def number : Recogniser :=
  fun text =>
    let sign := signLength text
    match runLength Char.isDigit (text.drop sign) with
    | 0 => none
    | digits =>
      let whole := sign + digits
      let decimal := whole + fractionLength (text.drop whole)
      some (decimal + exponentLength (text.drop decimal))

def isSymbolStart (c : Char) : Bool :=
  c.isAlpha || c = '!' || c = '?' || c = '$' || c = '@' || c = '_'

def isSymbolPart (c : Char) : Bool :=
  isSymbolStart c || c.isDigit || c = '-' || c = '+' || c = '*' || c = '/' || c = '%' || c = '^'

def symbol : Recogniser
  | c :: rest => if isSymbolStart c then some (runLength isSymbolPart rest + 1) else none
  | [] => none

def isSymbol (name : String) : Bool :=
  symbol.isWhole name.toList

end ParticlePatterns.Token
