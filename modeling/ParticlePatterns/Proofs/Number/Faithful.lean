import Mathlib
import ParticlePatterns.Number.Literal
import ParticlePatterns.Number.Numeral

/-!
# Faithful notations

What printing and reading rely on: a finite number is written in plain digits, and that
text denotes the number. Whole numbers in decimal have such a notation.
-/

set_option autoImplicit false

namespace ParticlePatterns

namespace Numeral

def IsPlain (text : List Char) : Prop :=
  ∃ sign whole fraction : List Char, text = sign ++ whole ++ fraction ∧
    (sign = [] ∨ sign = ['-']) ∧ (whole ≠ [] ∧ ∀ c ∈ whole, c.isDigit = true) ∧
    (fraction = [] ∨ ∃ places : List Char, fraction = '.' :: places ∧ places ≠ [] ∧
      ∀ c ∈ places, c.isDigit = true)

class Faithful (ν : Type) [Numeral ν] : Prop where
  isPlain_write (x : ν) : Numeral.isFinite x = true → IsPlain (Numeral.write x)
  read?_write (x : ν) : Numeral.isFinite x = true → Numeral.read? (Numeral.write x) = some x

end Numeral

namespace Literal

theorem natOfDigits_toDigits (n : Nat) : natOfDigits (Nat.toDigits 10 n) = n := by
  have swap : natOfDigits (Nat.toDigits 10 n) = Nat.ofDigitChars 10 (Nat.toDigits 10 n) 0 := by
    unfold natOfDigits
    rw [Nat.ofDigitChars_eq_foldl]
    congr 1
    funext a c
    rw [Nat.mul_comm]
  rw [swap, Nat.ofDigitChars_ten_toDigits]

theorem takeSign_digits {digits : List Char} (hd : ∀ c ∈ digits, c.isDigit = true) :
    takeSign digits = (false, digits) := by
  unfold takeSign
  split
  · exact absurd (hd '-' (by simp)) (by decide)
  · exact absurd (hd '+' (by simp)) (by decide)
  · rfl

/-- A run of digits, after a sign or without one, is that whole number. -/
theorem ofText_digits {digits : List Char} (hd : ∀ c ∈ digits, c.isDigit = true)
    (negative : Bool) :
    ofText ((if negative then ['-'] else []) ++ digits) = ⟨negative, natOfDigits digits, 0⟩ := by
  have sign : takeSign ((if negative then ['-'] else []) ++ digits) = (negative, digits) := by
    cases negative with
    | true => rfl
    | false => exact takeSign_digits hd
  have whole : (digits ++ []).takeWhile Char.isDigit = digits ++ _ :=
    List.takeWhile_append_of_pos hd
  have rest : (digits ++ []).dropWhile Char.isDigit = _ := List.dropWhile_append_of_pos hd
  simp only [List.append_nil, List.takeWhile_nil, List.dropWhile_nil] at whole rest
  simp only [ofText, sign, whole, rest]
  simp [exponentOf]

end Literal

instance Numeral.whole : Numeral Int where
  read? text :=
    let l := Literal.ofText text
    let magnitude : Int := l.value * 10 ^ l.exponent.toNat
    if 0 ≤ l.exponent then some (if l.negative then -magnitude else magnitude) else none
  write n := (if n < 0 then ['-'] else []) ++ Nat.toDigits 10 n.natAbs
  writeScientific n := (if n < 0 then ['-'] else []) ++ Nat.toDigits 10 n.natAbs
  writeFixed _ n := (if n < 0 then ['-'] else []) ++ Nat.toDigits 10 n.natAbs
  isFinite _ := true
  ofInt n := n

instance : Numeral.Faithful Int where
  isPlain_write n _ := by
    refine ⟨if n < 0 then ['-'] else [], Nat.toDigits 10 n.natAbs, [], by simp [Numeral.write],
      ?_, ⟨Nat.toDigits_ne_nil, fun c hc => ?_⟩, .inl rfl⟩
    · split <;> simp
    · exact Nat.isDigit_of_mem_toDigits (by decide) (by decide) hc
  read?_write n _ := by
    have digits : ∀ c ∈ Nat.toDigits 10 n.natAbs, c.isDigit = true :=
      fun c hc => Nat.isDigit_of_mem_toDigits (by decide) (by decide) hc
    have parts := Literal.ofText_digits digits (decide (n < 0))
    simp only [decide_eq_true_eq, Literal.natOfDigits_toDigits] at parts
    simp only [Numeral.read?, Numeral.write, parts, Int.toNat_zero, Int.pow_zero, Int.mul_one,
      decide_eq_true_eq, if_pos (Int.le_refl 0), Option.some.injEq]
    split <;> omega

end ParticlePatterns
