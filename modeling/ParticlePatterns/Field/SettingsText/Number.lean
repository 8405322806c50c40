import ParticlePatterns.Field.SettingsText.Name
import ParticlePatterns.Number.Literal

/-!
# Numbers in settings

A whole number is written in base 2, 8, 10 or 16, any other one as a decimal or by a word.
Low lines may part the digits, and the kind of number may be named behind them.
-/

set_option autoImplicit false

namespace ParticlePatterns.SettingsText

open Parsing

def digitValue (c : Char) : Nat :=
  if c.isDigit then c.toNat - '0'.toNat
  else if c.isLower then c.toNat - 'a'.toNat + 10
  else if c.isUpper then c.toNat - 'A'.toNat + 10
  else 36

def isHex (c : Char) : Bool :=
  decide (digitValue c < 16)

def wholeIn? (base : Nat) (text : List Char) : Option Nat :=
  let digits := text.filter (· != '_')
  if text.isEmpty || text.head? = some '_' then none
  else if digits.all fun c => decide (digitValue c < base) then
    some (digits.foldl (fun n c => n * base + digitValue c) 0)
  else none

def baseOf : List Char → Nat × Nat
  | '0' :: 'x' :: _ => (16, 2)
  | '0' :: 'b' :: _ => (2, 2)
  | '0' :: 'o' :: _ => (8, 2)
  | _ => (10, 0)

structure Word where
  signed : Bool
  bits : Nat
deriving DecidableEq, Repr

namespace Word

def all : List Word :=
  [⟨true, 8⟩, ⟨true, 16⟩, ⟨true, 32⟩, ⟨true, 64⟩, ⟨false, 8⟩, ⟨false, 16⟩, ⟨false, 32⟩, ⟨false, 64⟩]

def name (w : Word) : String :=
  (if w.signed then "i" else "u") ++ toString w.bits

def holds (w : Word) (negative : Bool) (amount : Nat) : Bool :=
  let limit := 1 <<< (if w.signed then w.bits - 1 else w.bits)
  if negative then decide (amount ≤ if w.signed then limit else 0) else decide (amount < limit)

end Word

structure Whole where
  negative : Bool
  amount : Nat
  word : Option Word
  length : Nat
deriving DecidableEq, Repr

namespace Whole

/-- The whole number that a text starts with. Whatever its base is, its digits go on as long
as those of base 16 do. -/
def read? (text : List Char) : Option Whole :=
  let isPart (c : Char) : Bool := isHex c || c = '_'
  let (negative, unsigned) := Literal.takeSign text
  let (base, mark) := baseOf unsigned
  let digits := (unsigned.drop mark).takeWhile isPart
  let behind := (unsigned.drop mark).dropWhile isPart
  let word := Word.all.find? fun w => (SettingsText.word w.name behind).isSome
  (wholeIn? base digits).map fun amount =>
    ⟨negative, amount, word, (text.length - unsigned.length) + mark + digits.length
      + word.elim 0 fun w => w.name.length⟩

def kind (n : Whole) : Word :=
  n.word.getD ⟨n.negative, 64⟩

def fits (n : Whole) : Bool :=
  n.kind.holds n.negative n.amount

def toUInt64? (n : Whole) : Option UInt64 :=
  if n.word.getD ⟨false, 64⟩ = ⟨false, 64⟩ ∧ Word.holds ⟨false, 64⟩ n.negative n.amount then
    some n.amount.toUInt64
  else none

end Whole

def wholeToken : Recogniser := fun text =>
  (Whole.read? text).bind fun n => if n.fits then some n.length else none

def decimalLength : List Char → Nat
  | '.' :: '.' :: _ => 0
  | c :: rest =>
      if c.isDigit || ['.', 'e', 'E', '+', '-', '_'].contains c then decimalLength rest + 1
      else 0
  | [] => 0

def linesPlaced : Bool → List Char → Bool
  | _, [] => true
  | allowed, '_' :: rest => allowed && linesPlaced allowed rest
  | allowed, c :: rest =>
      linesPlaced (c != '.' && (allowed || c.isDigit || c = 'e' || c = 'E')) rest

def boundless : Recogniser := fun text =>
  let (_, unsigned) := Literal.takeSign text
  (oneOf ["inf", "inff32", "inff64", "NaN", "NaNf32", "NaNf64"] unsigned).map
    (· + (text.length - unsigned.length))

def decimalToken : Recogniser := fun text =>
  let n := decimalLength text
  let shown := text.take n
  let (_, unsigned) := Literal.takeSign (shown.filter (· != '_'))
  if linesPlaced false shown && Literal.isUnsigned unsigned then
    some (n + (oneOf ["f32", "f64"] (text.drop n)).getD 0)
  else none

end ParticlePatterns.SettingsText
