/-!
# Decimal literals

A literal is taken apart into a whole number and a power of ten, and then rounded
to the nearest double.
-/

set_option autoImplicit false

namespace ParticlePatterns

structure Literal where
  negative : Bool
  value : Nat
  exponent : Int
deriving DecidableEq, Repr

namespace Literal

def natOfDigits (digits : List Char) : Nat :=
  digits.foldl (fun n c => n * 10 + (c.toNat - '0'.toNat)) 0

def takeSign : List Char → Bool × List Char
  | '-' :: rest => (true, rest)
  | '+' :: rest => (false, rest)
  | text => (false, text)

def exponentOf : List Char → Int
  | [] => 0
  | _ :: text =>
      let (negative, digits) := takeSign text
      if negative then -(natOfDigits digits : Int) else natOfDigits digits

def isExponent : List Char → Bool
  | [] => true
  | mark :: text =>
      let digits := (takeSign text).2
      (mark = 'e' || mark = 'E') && !digits.isEmpty && digits.all Char.isDigit

def isUnsigned (text : List Char) : Bool :=
  let whole := text.takeWhile Char.isDigit
  match text.dropWhile Char.isDigit with
  | '.' :: rest =>
      !(whole.isEmpty && (rest.takeWhile Char.isDigit).isEmpty)
        && isExponent (rest.dropWhile Char.isDigit)
  | rest => !whole.isEmpty && isExponent rest

def ofText (text : List Char) : Literal :=
  let (negative, text) := takeSign text
  let whole := text.takeWhile Char.isDigit
  let (places, text) :=
    match text.dropWhile Char.isDigit with
    | '.' :: rest => (rest.takeWhile Char.isDigit, rest.dropWhile Char.isDigit)
    | rest => ([], rest)
  ⟨negative, natOfDigits (whole ++ places), exponentOf text - (places.length : Int)⟩

/-- The nearest double. Exponents far outside its range are settled beforehand, so
that no power of ten grows with the literal. -/
def toFloat (l : Literal) : Float :=
  let digits := (Nat.toDigits 10 l.value).length
  let magnitude : Float :=
    if l.value = 0 then 0
    else if l.exponent + digits > 310 then 1 / 0
    else if l.exponent + digits < -330 then 0
    else if l.exponent < 0 then Float.ofScientific l.value true l.exponent.natAbs
    else Float.ofScientific l.value false l.exponent.toNat
  if l.negative then -magnitude else magnitude

end Literal

end ParticlePatterns
