import ParticlePatterns.Number.Literal
import ParticlePatterns.Number.Numeral
import ParticlePatterns.Number.Scalar
import ParticlePatterns.Number.Shortest

/-!
# Double precision

Machine numbers as scalars and as numerals. Literals are rounded to the nearest
double and doubles are written with the fewest digits that read back.
-/

set_option autoImplicit false

namespace ParticlePatterns

inductive Double
  | undefined
  | infinite (negative : Bool)
  | finite (negative : Bool) (magnitude : Binary)
deriving DecidableEq, Repr

namespace Double

def hiddenBit : Nat := 1 <<< 52

def ofBits (bits : Nat) : Double :=
  let negative := decide ((bits >>> 63) % 2 = 1)
  let biased : Nat := (bits >>> 52) % 2048
  let fraction : Nat := bits % hiddenBit
  if biased = 2047 then
    if fraction = 0 then .infinite negative else .undefined
  else if biased = 0 then .finite negative ⟨fraction, -1074, false⟩
  else
    let narrowBelow := decide (fraction = 0 ∧ 1 < biased)
    .finite negative ⟨hiddenBit + fraction, (biased : Int) - 1075, narrowBelow⟩

def ofFloat (x : Float) : Double :=
  ofBits x.toBits.toNat

def write (magnitude : Binary → List Char) : Double → List Char
  | .undefined => "NaN".toList
  | .infinite negative => (if negative then "-inf" else "inf").toList
  | .finite negative b => if negative then '-' :: magnitude b else magnitude b

def toText (d : Double) : List Char :=
  d.write fun b => (b.shortest .up).toText

def toScientific (d : Double) : List Char :=
  d.write fun b => (b.shortest .even).toScientific

def toFixed (d : Double) (places : Nat) : List Char :=
  d.write fun b => b.toFixed places

end Double

instance : Numeral Float where
  read? text :=
    let x := (Literal.ofText text).toFloat
    if x.isFinite then some x else none
  write x := (Double.ofFloat x).toText
  writeScientific x := (Double.ofFloat x).toScientific
  writeFixed places x := (Double.ofFloat x).toFixed places
  isFinite x := x.isFinite
  ofInt n := (Literal.mk (decide (n < 0)) n.natAbs 0).toFloat

instance : Scalar Float where
  decideLT := inferInstance
  decideLE := inferInstance
  ofNat n := if n < UInt64.size then n.toUInt64.toFloat else Float.ofNat n
  infinity := 1 / 0
  pi := Float.ofBits 0x400921FB54442D18
  floorNat x := x.toUInt64.toNat
  roundNat x := x.round.toUInt64.toNat
  sqrt := Float.sqrt
  sin := Float.sin
  cos := Float.cos
  pow := Float.pow

end ParticlePatterns
