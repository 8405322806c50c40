import ParticlePatterns.Proofs.Term.Pieces

/-!
# Tokens as languages

Numbers and symbols are the longest texts of their kinds, and that is what is found.
-/

set_option autoImplicit false

namespace ParticlePatterns

open Parsing (Recogniser)
open Parsing.Recogniser (runLength)

namespace Token

structure Longest (kind : List Char → Prop) (text here rest : List Char) : Prop where
  split : here = text ++ rest
  ofKind : kind text
  longest : ∀ other, other <+: here → kind other → other.length ≤ text.length

structure Spots (token : Recogniser) (kind : List Char → Prop) : Prop where
  found : ∀ here n, token here = some n → Longest kind (here.take n) here (here.drop n)
  missed : ∀ here, token here = none → ∀ text, text <+: here → ¬kind text

theorem Longest.unique {kind : List Char → Prop} {text here rest text' rest' : List Char}
    (h : Longest kind text here rest) (h' : Longest kind text' here rest') :
    text = text' ∧ rest = rest' := by
  have length : text.length = text'.length :=
    (h'.longest text ⟨rest, h.split.symm⟩ h.ofKind).antisymm
      (h.longest text' ⟨rest', h'.split.symm⟩ h'.ofKind)
  exact List.append_inj (h.split.symm.trans h'.split) length

theorem Spots.iff {token : Recogniser} {kind : List Char → Prop} (h : Spots token kind)
    (here rest text : List Char) : Longest kind text here rest ↔
      ∃ n, token here = some n ∧ rest = here.drop n ∧ text = here.take n := by
  constructor
  · intro longest
    cases found : token here with
    | none => exact absurd longest.ofKind (h.missed here found text ⟨rest, longest.split.symm⟩)
    | some n =>
      obtain ⟨ht, hr⟩ := longest.unique (h.found here n found)
      exact ⟨n, rfl, hr, ht⟩
  · rintro ⟨n, found, rfl, rfl⟩
    exact h.found here n found

theorem length_le_runLength {accepts : Char → Bool} {text : List Char} (rest : List Char)
    (h : ∀ c ∈ text, accepts c = true) : text.length ≤ runLength accepts (text ++ rest) := by
  rw [runLength, List.takeWhile_append_of_pos h, List.length_append]
  exact Nat.le_add_right _ _

/-! Symbols -/

def IsName (text : List Char) : Prop :=
  ∃ c tail, text = c :: tail ∧ isSymbolStart c = true ∧ ∀ d ∈ tail, isSymbolPart d = true

theorem spots_symbol : Spots symbol IsName := by
  refine ⟨fun here n found => ?_, fun here missed text => ?_⟩
  · cases here with
    | nil => cases found
    | cons c rest =>
      rw [symbol] at found
      split at found
      next start =>
        cases found
        refine ⟨(List.take_append_drop _ _).symm, ⟨c, _, rfl, start, accepts_take_runLength⟩, ?_⟩
        rintro _ ⟨after, split⟩ ⟨d, tail, rfl, _, parts⟩
        simp only [List.cons_append, List.cons.injEq] at split
        obtain ⟨rfl, rfl⟩ := split
        have run := length_le_runLength after parts
        simp only [List.length_take, List.length_cons, List.length_append]
        omega
      · cases found
  · rintro ⟨after, rfl⟩ ⟨c, tail, rfl, start, _⟩
    simp [symbol, start] at missed

/-! Numbers -/

def IsDigits (text : List Char) : Prop :=
  text ≠ [] ∧ ∀ c ∈ text, c.isDigit = true

def IsSign (text : List Char) : Prop :=
  text = [] ∨ text = ['+'] ∨ text = ['-']

def IsFraction (text : List Char) : Prop :=
  text = [] ∨ ∃ places, text = '.' :: places ∧ IsDigits places

def IsExponent (text : List Char) : Prop :=
  text = [] ∨ ∃ mark sign digits, text = mark :: (sign ++ digits) ∧
    (mark = 'e' ∨ mark = 'E') ∧ IsSign sign ∧ IsDigits digits

def IsNumber (text : List Char) : Prop :=
  ∃ sign whole fraction exponent, text = sign ++ (whole ++ (fraction ++ exponent)) ∧
    IsSign sign ∧ IsDigits whole ∧ IsFraction fraction ∧ IsExponent exponent

theorem isSign_take (text : List Char) : IsSign (text.take (signLength text)) := by
  unfold signLength
  split
  · exact .inr (.inl rfl)
  · exact .inr (.inr rfl)
  · exact .inl rfl

theorem signLength_append {sign digits : List Char} (hs : IsSign sign) (hd : IsDigits digits)
    (rest : List Char) : signLength (sign ++ (digits ++ rest)) = sign.length := by
  obtain ⟨d, tail, rfl⟩ := List.exists_cons_of_ne_nil hd.1
  obtain rfl | rfl | rfl := hs
  · exact signLength_of_digit _ (hd.2 d (by simp))
  · rfl
  · rfl

theorem isDigits_take {text : List Char} (h : runLength Char.isDigit text ≠ 0) :
    IsDigits (text.take (runLength Char.isDigit text)) := by
  refine ⟨fun none => h ?_, accepts_take_runLength⟩
  rw [Recogniser.take_runLength] at none
  rw [runLength, none, List.length_nil]

theorem fractionLength_point (rest : List Char) : fractionLength ('.' :: rest) =
    if runLength Char.isDigit rest = 0 then 0 else runLength Char.isDigit rest + 1 := by
  rw [fractionLength]
  split <;> simp_all

theorem exponentLength_cons (mark : Char) (rest : List Char) : exponentLength (mark :: rest) =
    if (mark = 'e' ∨ mark = 'E') ∧ runLength Char.isDigit (rest.drop (signLength rest)) ≠ 0 then
      signLength rest + runLength Char.isDigit (rest.drop (signLength rest)) + 1
    else 0 := by
  rw [exponentLength]
  split
  · dsimp only
    split <;> simp_all
  · simp_all

theorem number_eq (text : List Char) : number text =
    let digits := text.drop (signLength text)
    let run := runLength Char.isDigit digits
    let behind := digits.drop run
    let point := fractionLength behind
    if run = 0 then none
    else some (signLength text + (run + (point + exponentLength (behind.drop point)))) := by
  rw [number]
  dsimp only
  split
  next none => rw [if_pos none]
  next some =>
    rw [if_neg some]
    simp only [List.drop_drop, Nat.add_assoc]

theorem fractionLength_of_ne {c : Char} (h : c ≠ '.') (rest : List Char) :
    fractionLength (c :: rest) = 0 := by
  unfold fractionLength
  split
  next split => exact absurd (List.cons.inj split).1 h
  · rfl

theorem isFraction_take (text : List Char) : IsFraction (text.take (fractionLength text)) := by
  cases text with
  | nil => exact .inl rfl
  | cons c rest =>
    by_cases point : c = '.'
    · subst point
      rw [fractionLength_point]
      split
      · exact .inl rfl
      next run => exact .inr ⟨_, rfl, isDigits_take run⟩
    · rw [fractionLength_of_ne point]
      exact .inl rfl

theorem isExponent_take (text : List Char) : IsExponent (text.take (exponentLength text)) := by
  cases text with
  | nil => exact .inl rfl
  | cons mark rest =>
    rw [exponentLength_cons]
    split
    next h =>
      refine .inr ⟨mark, rest.take (signLength rest), _, ?_, h.1, isSign_take rest,
        isDigits_take h.2⟩
      rw [List.take_succ_cons, List.take_add]
    · exact .inl rfl

theorem length_le_exponentLength {exponent : List Char} (h : IsExponent exponent)
    (rest : List Char) : exponent.length ≤ exponentLength (exponent ++ rest) := by
  obtain rfl | ⟨mark, sign, digits, rfl, hm, hs, hd⟩ := h
  · exact Nat.zero_le _
  · have run := length_le_runLength rest hd.2
    have some := List.length_pos_iff.2 hd.1
    rw [List.cons_append, List.append_assoc, exponentLength_cons, signLength_append hs hd,
      List.drop_left, if_pos ⟨hm, by omega⟩]
    simp only [List.length_cons, List.length_append]
    omega

/-- Behind the digits of a number comes a fraction or an exponent, or nothing of it. -/
theorem not_digit_of_parts {fraction exponent : List Char} (hf : IsFraction fraction)
    (he : IsExponent exponent) (hne : fraction ++ exponent ≠ []) (rest : List Char) :
    ∀ c ∈ (fraction ++ (exponent ++ rest)).head?, c.isDigit = false := by
  obtain rfl | ⟨places, rfl, _⟩ := hf
  · obtain rfl | ⟨mark, sign, digits, rfl, hm, _⟩ := he
    · exact absurd rfl hne
    · intro c hc
      cases hc
      obtain rfl | rfl := hm <;> decide
  · intro c hc
    cases hc
    decide

theorem length_le_fractionLength {fraction exponent : List Char} (hf : IsFraction fraction)
    (he : IsExponent exponent) (rest : List Char) :
    fraction.length + exponent.length ≤ fractionLength (fraction ++ (exponent ++ rest)) +
      exponentLength ((fraction ++ (exponent ++ rest)).drop
        (fractionLength (fraction ++ (exponent ++ rest)))) := by
  obtain rfl | ⟨places, rfl, hd⟩ := hf
  · have none : fractionLength (exponent ++ rest) = 0 ∨ exponent = [] := by
      obtain rfl | ⟨mark, sign, digits, rfl, hm, _⟩ := he
      · exact .inr rfl
      · refine .inl (fractionLength_of_ne ?_ _)
        obtain rfl | rfl := hm <;> decide
    obtain none | rfl := none
    · rw [List.nil_append, none]
      simpa using length_le_exponentLength he rest
    · simp
  · have run := length_le_runLength (exponent ++ rest) hd.2
    have some := List.length_pos_iff.2 hd.1
    rw [List.cons_append, fractionLength_point, if_neg (by omega), List.drop_succ_cons,
      List.length_cons]
    by_cases last : exponent = []
    · subst last
      simp only [List.length_nil]
      omega
    · -- no digit follows the places, so that the exponent is seen
      have seen : ∀ c ∈ (exponent ++ rest).head?, c.isDigit = false :=
        not_digit_of_parts (.inl rfl) he last rest
      rw [runLength_append hd.2 seen, List.drop_left]
      have := length_le_exponentLength he rest
      omega

/-- Whatever number a text starts with, the one that is found is no shorter. -/
theorem length_le_number {text : List Char} (h : IsNumber text) (rest : List Char) :
    ∃ n, number (text ++ rest) = some n ∧ text.length ≤ n := by
  obtain ⟨sign, whole, fraction, exponent, rfl, hs, hd, hf, he⟩ := h
  have some := List.length_pos_iff.2 hd.1
  have run := length_le_runLength (fraction ++ (exponent ++ rest)) hd.2
  simp only [List.append_assoc, List.length_append, number_eq, signLength_append hs hd,
    List.drop_left]
  rw [if_neg (by omega)]
  refine ⟨_, rfl, ?_⟩
  by_cases last : fraction ++ exponent = []
  · obtain ⟨rfl, rfl⟩ := List.append_eq_nil_iff.1 last
    simp only [List.length_nil]
    omega
  · rw [runLength_append hd.2 (not_digit_of_parts hf he last rest), List.drop_left]
    have parts := length_le_fractionLength hf he rest
    omega

theorem isNumber_take {here : List Char} {n : Nat} (found : number here = some n) :
    IsNumber (here.take n) := by
  rw [number_eq] at found
  dsimp only at found
  split at found
  · cases found
  next run =>
    cases found
    rw [List.take_add, List.take_add, List.take_add]
    exact ⟨_, _, _, _, rfl, isSign_take here, isDigits_take run, isFraction_take _,
      isExponent_take _⟩

theorem spots_number : Spots number IsNumber := by
  refine ⟨fun here n found => ?_, fun here missed text => ?_⟩
  · refine ⟨(List.take_append_drop _ _).symm, isNumber_take found, ?_⟩
    rintro other ⟨after, rfl⟩ number
    obtain ⟨m, hm, long⟩ := length_le_number number after
    cases hm.symm.trans found
    simp only [List.length_take, List.length_append]
    omega
  · rintro ⟨after, rfl⟩ number
    obtain ⟨m, hm, _⟩ := length_le_number number after
    cases hm.symm.trans missed

end Token

end ParticlePatterns
