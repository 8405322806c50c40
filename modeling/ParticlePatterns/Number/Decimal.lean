/-!
# Positional decimal text

Digits are kept apart from the place of the point: `value · 10 ^ exponent`.
Text is written without an exponent, however large or small the number is.
-/

set_option autoImplicit false

namespace ParticlePatterns

structure Decimal where
  value : Nat
  exponent : Int
deriving DecidableEq, Repr

def roundHalfEven (num den : Nat) : Nat :=
  let quotient := num / den
  let twice := 2 * (num % den)
  if twice < den then quotient
  else if den < twice then quotient + 1
  else quotient + quotient % 2

namespace Decimal

def paddedDigits (n width : Nat) : List Char :=
  let digits := Nat.toDigits 10 n
  List.replicate (width - digits.length) '0' ++ digits

def fixedPoint (n places : Nat) : List Char :=
  let digits := paddedDigits n (places + 1)
  let whole := digits.length - places
  if places = 0 then digits
  else digits.take whole ++ '.' :: digits.drop whole

def toText (d : Decimal) : List Char :=
  match d.exponent with
  | .ofNat zeros =>
      if d.value = 0 then ['0'] else Nat.toDigits 10 d.value ++ List.replicate zeros '0'
  | .negSucc places => fixedPoint d.value (places + 1)

def toScientific (d : Decimal) : List Char :=
  let digits := Nat.toDigits 10 d.value
  let magnitude := d.exponent + digits.length
  if d.value = 0 then ['0', '.', '0']
  else if -5 < magnitude ∧ magnitude ≤ 16 then
    match d.exponent with
    | .ofNat _ => d.toText ++ ['.', '0']
    | .negSucc _ => d.toText
  else
    let shown := (magnitude - 1).natAbs
    let sign := if magnitude < 1 then '-' else '+'
    let exponent := 'e' :: sign :: Nat.toDigits 10 shown
    match digits with
    | first :: second :: rest => first :: '.' :: second :: rest ++ exponent
    | single => single ++ exponent

end Decimal

end ParticlePatterns
