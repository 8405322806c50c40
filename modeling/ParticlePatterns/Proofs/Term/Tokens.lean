import ParticlePatterns.Proofs.Number.Faithful
import ParticlePatterns.Term.Token

/-!
# Tokens in front of a text

Where a token ends depends on what follows it. `Ends rest` says that neither a number
nor a symbol goes on into `rest`, and `Filler.Clear` that no filler starts there. A
written number, a name and a run of blanks are then read back as they stand.
-/

set_option autoImplicit false

namespace ParticlePatterns

open Parsing (Filler Recogniser)
open Parsing.Recogniser (runLength)

namespace Token

def Ends (rest : List Char) : Prop :=
  (∀ c ∈ rest.head?, isSymbolPart c = false) ∧ fractionLength rest = 0

theorem ends_nil : Ends [] := ⟨by simp, rfl⟩

theorem ends_cons {c : Char} (rest : List Char) (hc : isSymbolPart c = false)
    (hp : c ≠ '.') : Ends (c :: rest) := by
  refine ⟨by simpa using hc, ?_⟩
  unfold fractionLength
  split
  · rename_i heq
    exact absurd (List.cons.inj heq).1 hp
  · rfl

theorem ends_range (rest : List Char) : Ends ('.' :: '.' :: rest) := by
  refine ⟨by simp; decide, ?_⟩
  simp [fractionLength, runLength, show Char.isDigit '.' = false by decide]

theorem Ends.not_digit {rest : List Char} (h : Ends rest) :
    ∀ c ∈ rest.head?, c.isDigit = false := by
  intro c hc
  have part := h.1 c hc
  simp only [isSymbolPart, Bool.or_eq_false_iff] at part
  exact part.1.1.1.1.1.1.2

theorem Ends.exponentLength {rest : List Char} (h : Ends rest) : exponentLength rest = 0 := by
  unfold Token.exponentLength
  cases rest with
  | nil => rfl
  | cons mark rest =>
    have part := h.1 mark rfl
    have hm : ¬(mark = 'e' ∨ mark = 'E') := by
      rintro (rfl | rfl) <;> exact absurd part (by decide)
    exact if_neg hm

theorem not_digit_of_isSymbolStart {c : Char} (h : isSymbolStart c = true) :
    c.isDigit = false := by
  rw [← Bool.not_eq_true]
  intro hd
  simp only [Char.isDigit, Bool.and_eq_true, decide_eq_true_eq, ge_iff_le,
    UInt32.le_iff_toNat_le] at hd
  simp only [isSymbolStart, Char.isAlpha, Char.isUpper, Char.isLower, Bool.or_eq_true,
    Bool.and_eq_true, decide_eq_true_eq, ge_iff_le, UInt32.le_iff_toNat_le] at h
  rcases h with ((((h | h) | h) | h) | h) | h
  · rcases h with h | h <;> simp at h hd <;> omega
  all_goals subst h; exact absurd hd (by decide)

theorem runLength_append {accepts : Char → Bool} {text rest : List Char}
    (ht : ∀ c ∈ text, accepts c = true) (hr : ∀ c ∈ rest.head?, accepts c = false) :
    runLength accepts (text ++ rest) = text.length := by
  unfold runLength
  rw [List.takeWhile_append_of_pos ht]
  cases rest with
  | nil => simp
  | cons c rest => simp [hr c rfl]

theorem fractionLength_digits {places rest : List Char} (hne : places ≠ [])
    (hd : ∀ c ∈ places, c.isDigit = true) (hr : Ends rest) :
    fractionLength ('.' :: (places ++ rest)) = places.length + 1 := by
  have pos := List.length_pos_iff.2 hne
  simp only [fractionLength, runLength_append hd hr.not_digit]
  split
  · omega
  · rfl

theorem signLength_of_digit {c : Char} (rest : List Char) (hc : c.isDigit = true) :
    signLength (c :: rest) = 0 := by
  unfold signLength
  split
  · rename_i heq
    rw [(List.cons.inj heq).1] at hc
    exact absurd hc (by decide)
  · rename_i heq
    rw [(List.cons.inj heq).1] at hc
    exact absurd hc (by decide)
  · rfl

/-- Digits after a sign of known length, in front of a point or of what ends them. -/
theorem number_of_parts {sign whole rest : List Char} (after : Nat)
    (hs : signLength (sign ++ (whole ++ rest)) = sign.length) (hne : whole ≠ [])
    (hd : ∀ c ∈ whole, c.isDigit = true) (hr : ∀ c ∈ rest.head?, c.isDigit = false)
    (hf : fractionLength rest = after) (he : exponentLength (rest.drop after) = 0) :
    number (sign ++ (whole ++ rest)) = some (sign.length + whole.length + after) := by
  have pos := List.length_pos_iff.2 hne
  have split_off : (sign ++ (whole ++ rest)).drop (sign.length + whole.length) = rest := by
    rw [← List.append_assoc, ← List.length_append, List.drop_left]
  have split_more : (sign ++ (whole ++ rest)).drop (sign.length + whole.length + after)
      = rest.drop after := by
    rw [← List.drop_drop, split_off]
  simp only [number, hs, List.drop_left, runLength_append hd hr]
  split
  · omega
  · rw [split_off, hf, split_more, he]
    rfl

theorem number_plain {text rest : List Char} (ht : Numeral.IsPlain text) (hr : Ends rest) :
    number (text ++ rest) = some text.length := by
  obtain ⟨sign, whole, fraction, rfl, hs, ⟨hne, hd⟩, hf⟩ := ht
  have sign_length : ∀ tail, signLength (sign ++ (whole ++ tail)) = sign.length := by
    intro tail
    obtain ⟨d, more, rfl⟩ := List.exists_cons_of_ne_nil hne
    rcases hs with rfl | rfl
    · exact signLength_of_digit _ (hd d (by simp))
    · rfl
  rw [List.append_assoc, List.append_assoc]
  rcases hf with rfl | ⟨places, rfl, hp, hpd⟩
  · rw [List.nil_append,
      number_of_parts 0 (sign_length rest) hne hd hr.not_digit hr.2 hr.exponentLength]
    simp
  · rw [List.cons_append, number_of_parts (places.length + 1) (sign_length _) hne hd
      (by intro c hc; cases hc; decide) (fractionLength_digits hp hpd hr)
      (by simpa using hr.exponentLength)]
    simp [Nat.add_assoc]

theorem symbol_name {name : String} {rest : List Char} (hn : isSymbol name = true)
    (hr : Ends rest) : symbol (name.toList ++ rest) = some name.toList.length := by
  have whole := (Recogniser.isWhole_iff symbol name.toList).1 hn
  cases hc : name.toList with
  | nil =>
    rw [hc] at whole
    exact absurd whole (by simp [symbol])
  | cons c tail =>
    rw [hc] at whole
    simp only [symbol] at whole
    split at whole
    · rename_i hstart
      simp only [Option.some.injEq, List.length_cons, Nat.add_right_cancel_iff] at whole
      have htail : ∀ x ∈ tail, isSymbolPart x = true := by
        unfold runLength at whole
        intro x hx
        rw [← (List.takeWhile_sublist _).eq_of_length whole] at hx
        exact List.all_eq_true.1 List.all_takeWhile x hx
      simp [symbol, hstart, runLength_append htail hr.1]
    · cases whole

end Token

namespace Parsing.Filler

def Clear (f : Filler) (rest : List Char) : Prop :=
  ∀ c ∈ rest.head?, f.blank c = false ∧ c ≠ '/'

theorem pieceLength?_clear {f : Filler} {c : Char} {rest : List Char}
    (h : f.Clear (c :: rest)) : f.pieceLength? (c :: rest) = none := by
  obtain ⟨hb, hs⟩ := h c rfl
  unfold pieceLength?
  split <;> simp_all

theorem pieceLength?_blank {f : Filler} {c : Char} (rest : List Char) (hb : f.blank c = true)
    (hs : c ≠ '/') : f.pieceLength? (c :: rest) = some 1 := by
  unfold pieceLength?
  split <;> simp_all

theorem lengthFrom_blanks {f : Filler} {gap rest : List Char}
    (hg : ∀ c ∈ gap, f.blank c = true ∧ c ≠ '/') (hr : f.Clear rest) :
    f.lengthFrom 0 (gap ++ rest) = gap.length := by
  induction gap with
  | nil =>
    cases rest with
    | nil => rfl
    | cons c rest => simp [lengthFrom, pieceLength?_clear hr]
  | cons c gap ih =>
    obtain ⟨hb, hs⟩ := hg c (by simp)
    simp [lengthFrom, pieceLength?_blank _ hb hs, ih fun d hd => hg d (by simp [hd])]

end Parsing.Filler

end ParticlePatterns
