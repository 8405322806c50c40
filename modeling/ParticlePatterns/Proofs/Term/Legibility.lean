import ParticlePatterns.Proofs.Parsing.Reads
import ParticlePatterns.Proofs.Term.Tokens
import ParticlePatterns.Term.Grammar

/-!
# Texts that are read back as a term

`Legible text t` says that the grammar reads `text` as `t` wherever a token may end
behind it, with any number of levels that is enough for the text. Each way to put
terms together keeps legibility, whatever the parts are and however they are written.
-/

set_option autoImplicit false

namespace ParticlePatterns.Grammar

open Parsing (Filler)
open Parsing.Parser
open Token (Ends)

def startsTerm (c : Char) : Bool :=
  c.isDigit || c = '-' || c = '+' || Token.isSymbolStart c || c = '(' || c = '[' || c = '<'
    || c = '\x7b'

def startsFiller (c : Char) : Bool :=
  c = ' ' || c = '\t' || c = '\r' || c = '\n' || c = '/'

theorem startsFiller_of_startsTerm {c : Char} (h : startsTerm c = true) :
    startsFiller c = false := by
  rw [← Bool.not_eq_true]
  intro hf
  simp only [startsFiller, Bool.or_eq_true, decide_eq_true_eq] at hf
  rcases hf with (((rfl | rfl) | rfl) | rfl) | rfl <;> exact absurd h (by decide)

theorem reads_filler {gap rest : List Char} (hg : ∀ c ∈ gap, c = ' ' ∨ c = '\n')
    (hr : ∀ c ∈ rest.head?, startsFiller c = false) :
    filler.Reads gap rest (String.ofList gap) := by
  refine reads_pattern (congrArg some (Filler.lengthFrom_blanks ?_ ?_)) _
  · intro c hc
    rcases hg c hc with rfl | rfl <;> decide
  · intro c hc
    have := hr c hc
    simp only [startsFiller, Bool.or_eq_false_iff, decide_eq_false_iff_not] at this
    simp [this]

theorem reads_lineFiller {gap rest : List Char} (hg : ∀ c ∈ gap, c = ' ')
    (hr : ∀ c ∈ rest.head?, c ≠ ' ' ∧ c ≠ '\t' ∧ c ≠ '/') :
    lineFiller.Reads gap rest (String.ofList gap) := by
  refine reads_pattern (congrArg some (Filler.lengthFrom_blanks ?_ ?_)) _
  · intro c hc
    rw [hg c hc]
    decide
  · intro c hc
    simp [hr c hc]

section Stops

variable {ν : Type} [Numeral ν]

theorem number_stops {rest : List Char}
    (h : ∀ c ∈ rest.head?, c.isDigit = false ∧ c ≠ '-' ∧ c ≠ '+') :
    (number : Parsing.Parser (Term ν)).Stops rest := by
  have none_read : Token.number rest = none := by
    cases rest with
    | nil => rfl
    | cons c rest =>
      obtain ⟨hd, hm, hp⟩ := h c rfl
      have hs : Token.signLength (c :: rest) = 0 := by
        unfold Token.signLength
        split <;> simp_all
      simp [Token.number, hs, Parsing.Recogniser.runLength, hd]
  intro here hr
  obtain ⟨failure, hf⟩ := pattern_stops none_read "number" here hr
  exact ⟨failure, by simp only [number, hf]⟩

omit [Numeral ν] in
theorem symbol_stops {rest : List Char}
    (h : ∀ c ∈ rest.head?, Token.isSymbolStart c = false) :
    (symbol : Parsing.Parser (Term ν)).Stops rest := by
  refine Stops.bind (pattern_stops ?_ _) _
  cases rest with
  | nil => rfl
  | cons c rest => simp [Token.symbol, h c rfl]

theorem char_stops {text : String} {left : Char} {rest : List Char} (ht : text.toList = [left])
    (h : ∀ c ∈ rest.head?, c ≠ left) : (string text).Stops rest := by
  refine string_stops ?_
  cases rest with
  | nil => rw [ht]; rfl
  | cons c rest =>
    have := h c rfl
    simp [ht, List.isPrefixOf, beq_eq_false_iff_ne, this.symm]

variable (inner : Parsing.Parser (Term ν))

omit [Numeral ν] in
theorem listOf_stops {rest : List Char} (h : ∀ c ∈ rest.head?, c ≠ '(') :
    (listOf inner).Stops rest :=
  ((((char_stops rfl h).bind _).bind _).bind _).bind _

omit [Numeral ν] in
theorem bracketOf_stops {shape : Bracket} {left : Char} {rest : List Char}
    (hs : shape.left.toList = [left]) (h : ∀ c ∈ rest.head?, c ≠ left) :
    (bracketOf inner shape).Stops rest :=
  ((char_stops hs h).bind _).bind _

omit [Numeral ν] in
theorem blockOf_stops {rest : List Char} (h : ∀ c ∈ rest.head?, c ≠ '\x7b') :
    (blockOf inner).Stops rest :=
  (((char_stops rfl h).bind _).bind _).bind _

theorem termOf_stops {rest : List Char} (h : ∀ c ∈ rest.head?, startsTerm c = false) :
    (termOf inner).Stops rest := by
  simp only [startsTerm, Bool.or_eq_false_iff, decide_eq_false_iff_not] at h
  refine (tryEach_stops ?_ none).label _
  intro p hp
  simp only [List.mem_cons, List.not_mem_nil, or_false] at hp
  rcases hp with rfl | rfl | rfl | rfl | rfl | rfl
  · exact number_stops fun c hc => ⟨(h c hc).1.1.1.1.1.1.1, (h c hc).1.1.1.1.1.1.2,
      (h c hc).1.1.1.1.1.2⟩
  · exact symbol_stops fun c hc => (h c hc).1.1.1.1.2
  · exact listOf_stops inner fun c hc => (h c hc).1.1.1.2
  · exact bracketOf_stops inner rfl fun c hc => (h c hc).1.1.2
  · exact bracketOf_stops inner rfl fun c hc => (h c hc).1.2
  · exact blockOf_stops inner fun c hc => (h c hc).2

theorem unroll_stops {levels : Nat} {rest : List Char} (hl : 0 < levels)
    (h : ∀ c ∈ rest.head?, startsTerm c = false) :
    (unroll (@termOf ν _) levels).Stops rest := by
  obtain ⟨levels, rfl⟩ : ∃ n, levels = n + 1 := ⟨levels - 1, by omega⟩
  exact termOf_stops _ h

end Stops

variable {ν : Type} [Numeral ν]

structure Legible (text : List Char) (t : Term ν) : Prop where
  starts : ∃ c tail, text = c :: tail ∧ startsTerm c = true
  reads (rest : List Char) (levels : Nat) : Ends rest → (text ++ rest).length < levels →
    (unroll termOf levels).Reads text rest t

/-- A text that is read at the outermost level with one level less for what is inside. -/
theorem legible_of_termOf {c : Char} {tail : List Char} {t : Term ν}
    (hc : startsTerm c = true)
    (h : ∀ rest levels, Ends rest → (tail ++ rest).length < levels →
      (termOf (unroll termOf levels)).Reads (c :: tail) rest t) :
    Legible (c :: tail) t := by
  refine ⟨⟨c, tail, rfl, hc⟩, fun rest levels hr hl => ?_⟩
  obtain ⟨levels, rfl⟩ : ∃ n, levels = n + 1 := ⟨levels - 1, by omega⟩
  exact h rest levels hr (by simpa using hl)

theorem Legible.head {text : List Char} {t : Term ν} (h : Legible text t)
    (rest : List Char) : ∀ c ∈ (text ++ rest).head?, startsTerm c = true := by
  obtain ⟨c, tail, rfl, hc⟩ := h.starts
  intro d hd
  cases hd
  exact hc

theorem Legible.ne_nil {text : List Char} {t : Term ν} (h : Legible text t) : text ≠ [] := by
  obtain ⟨c, tail, rfl, _⟩ := h.starts
  simp

theorem legible_number [Numeral.Faithful ν] {x : ν} (hx : Numeral.isFinite x = true) :
    Legible (Numeral.write x) (.number x) := by
  have plain := Numeral.Faithful.isPlain_write x hx
  have first : ∃ c tail, Numeral.write x = c :: tail ∧ startsTerm c = true := by
    obtain ⟨sign, whole, fraction, ht, hs, ⟨hne, hd⟩, _⟩ := plain
    obtain ⟨d, more, rfl⟩ := List.exists_cons_of_ne_nil hne
    rcases hs with rfl | rfl
    · exact ⟨d, more ++ fraction, ht, by simp [startsTerm, hd d (by simp)]⟩
    · exact ⟨'-', d :: more ++ fraction, ht, by decide⟩
  obtain ⟨c, tail, ht, hc⟩ := first
  rw [ht]
  refine legible_of_termOf hc fun rest levels hr _ => ?_
  rw [← ht]
  refine (reads_tryEach_head ?_ none).label _
  intro here hh
  have token := reads_pattern (Token.number_plain plain hr) "number" here hh
  simp only [number, token, String.toList_ofList, Numeral.Faithful.read?_write x hx]

theorem legible_symbol {name : String} (hn : Token.isSymbol name = true) :
    Legible name.toList (.symbol name : Term ν) := by
  have token : ∀ rest, Ends rest → Token.symbol (name.toList ++ rest) = some name.toList.length :=
    fun _ hr => Token.symbol_name hn hr
  have first : ∃ c tail, name.toList = c :: tail ∧ Token.isSymbolStart c = true := by
    have whole := token [] Token.ends_nil
    rw [List.append_nil] at whole
    cases ht : name.toList with
    | nil => exact absurd (ht ▸ whole) (by simp [Token.symbol])
    | cons c tail =>
      refine ⟨c, tail, rfl, ?_⟩
      cases hc : Token.isSymbolStart c with
      | true => rfl
      | false => exact absurd (ht ▸ whole) (by simp [Token.symbol, hc])
  obtain ⟨c, tail, ht, hc⟩ := first
  rw [ht]
  refine legible_of_termOf (by simp [startsTerm, hc]) fun rest levels hr _ => ?_
  have skip_number : (number : Parsing.Parser (Term ν)).Stops (c :: tail ++ rest) := by
    refine number_stops fun d hd => ?_
    cases hd
    refine ⟨Token.not_digit_of_isSymbolStart hc, ?_, ?_⟩ <;>
      (rintro rfl; exact absurd hc (by decide))
  have named : String.ofList (c :: tail) = name := by rw [← ht, String.ofList_toList]
  have read : (symbol : Parsing.Parser (Term ν)).Reads (c :: tail) rest (.symbol name) := by
    have here : Token.symbol (c :: tail ++ rest) = some (c :: tail).length := by
      rw [← ht]
      exact token rest hr
    rw [← named]
    exact (reads_pattern here "symbol").map Term.symbol
  exact (reads_tryEach_tail skip_number (reads_tryEach_head read) none).label _

structure ReadsTerms (inner : Parsing.Parser (Term ν)) (levels : Nat) : Prop where
  reads {text : List Char} {t : Term ν} (rest : List Char) : Legible text t → Ends rest →
    (text ++ rest).length < levels → inner.Reads text rest t
  stops (rest : List Char) : (∀ c ∈ rest.head?, startsTerm c = false) → inner.Stops rest

theorem readsTerms_unroll {levels : Nat} (hl : 0 < levels) :
    ReadsTerms (unroll (@termOf ν _) levels) levels :=
  ⟨fun rest ht hr hl => ht.reads rest levels hr hl, fun _ => unroll_stops hl⟩

theorem readsTerms_term (levels : Nat) : ReadsTerms (@term ν _) levels := by
  refine ⟨fun rest ht hr _ => reads_fix (ht.reads rest _ hr (Nat.lt_succ_self _)), ?_⟩
  intro rest h here hr
  exact unroll_stops (Nat.succ_pos _) h here hr

/-! Terms side by side, as items of a repetition. -/

def joined (write : Term ν → List Char) (between last : List Char) : List (Term ν) → List Char
  | [] => []
  | [t] => write t ++ last
  | t :: next :: rest => write t ++ between ++ joined write between last (next :: rest)

omit [Numeral ν] in
theorem joined_eq_intercalate (write : Term ν → List Char) (between last : List Char)
    (first : Term ν) (others : List (Term ν)) : joined write between last (first :: others)
      = between.intercalate ((first :: others).map write) ++ last := by
  induction others generalizing first with
  | nil => simp [joined]
  | cons second others ih => simp [joined, ih second]

omit [Numeral ν] in
theorem joined_nil_eq_intercalate (write : Term ν → List Char) (between : List Char)
    (ts : List (Term ν)) : joined write between [] ts = between.intercalate (ts.map write) := by
  cases ts with
  | nil => rfl
  | cons first others => rw [joined_eq_intercalate, List.append_nil]

omit [Numeral ν] in
theorem joined_starts {write : Term ν → List Char} {between last : List Char} {first : Term ν}
    (others : List (Term ν)) (h : ∃ c tail, write first = c :: tail ∧ startsTerm c = true) :
    ∃ c tail, joined write between last (first :: others) = c :: tail ∧ startsTerm c = true := by
  obtain ⟨c, tail, hw, hc⟩ := h
  cases others <;> exact ⟨c, _, by rw [joined, hw]; rfl, hc⟩

section Spaced

variable {write : Term ν → List Char} {inner : Parsing.Parser (Term ν)} {levels : Nat}
  {fill : Parsing.Parser String} {last rest : List Char} {lastText : String}

theorem joined_head {ts : List (Term ν)} (h : ∀ t ∈ ts, Legible (write t) t) :
    ∀ c ∈ (joined write [' '] last ts ++ rest).head?, startsTerm c = true ∨ c ∈ rest.head? := by
  intro c hc
  match ts with
  | [] => exact .inr hc
  | t :: more =>
    obtain ⟨d, tail, ht, hd⟩ : ∃ d tail, joined write [' '] last (t :: more) = d :: tail ∧
      startsTerm d = true := joined_starts more (h t (by simp)).starts
    rw [ht] at hc
    cases hc
    exact .inl hd

theorem reads_first_joined (hi : ReadsTerms inner levels)
    (hfill : ∀ c text, startsTerm c = true → fill.Reads [' '] (c :: text) " ")
    (hlast : fill.Reads last rest lastText) (hend : Ends (last ++ rest))
    (first : Term ν) (others : List (Term ν)) (h : ∀ t ∈ first :: others, Legible (write t) t)
    (hl : (joined write [' '] last (first :: others) ++ rest).length < levels) :
    ∃ gap, joined write [' '] last (first :: others) =
        (write first ++ gap) ++ joined write [' '] last others ∧
      (inner.skip fill).Reads (write first ++ gap)
        (joined write [' '] last others ++ rest) first := by
  have one := h first (by simp)
  match others with
  | [] =>
    refine ⟨last, by simp [joined], ?_⟩
    exact Reads.skip (hi.reads (last ++ rest) one hend (by simpa [joined] using hl)) hlast
  | second :: more =>
    have two : ∃ c tail, joined write [' '] last (second :: more) ++ rest = c :: tail ∧
        startsTerm c = true := by
      obtain ⟨c, tail, ht, hs⟩ := joined_starts more (h second (by simp)).starts
      exact ⟨c, tail ++ rest, by rw [ht]; rfl, hs⟩
    obtain ⟨c, tail, ht, hs⟩ := two
    refine ⟨[' '], by simp [joined], ?_⟩
    rw [ht]
    exact Reads.skip (hi.reads ([' '] ++ c :: tail) one
      (Token.ends_cons _ (by decide) (by decide))
      (by rw [← ht]; simpa [joined] using hl)) (hfill c tail hs)

theorem items_joined (hi : ReadsTerms inner levels)
    (hfill : ∀ c text, startsTerm c = true → fill.Reads [' '] (c :: text) " ")
    (hlast : fill.Reads last rest lastText) (hend : Ends (last ++ rest))
    (hstop : ∀ c ∈ rest.head?, startsTerm c = false)
    (ts : List (Term ν)) (h : ∀ t ∈ ts, Legible (write t) t)
    (hl : (joined write [' '] last ts ++ rest).length < levels) :
    Items (inner.skip fill) rest (joined write [' '] last ts) ts := by
  induction ts with
  | nil => exact .none ((hi.stops rest hstop).bind _)
  | cons first others ih =>
    obtain ⟨gap, split, read⟩ := reads_first_joined hi hfill hlast hend first others h hl
    rw [split] at hl ⊢
    have ne_nil : write first ++ gap ≠ [] := by simp [(h first (by simp)).ne_nil]
    exact .more ne_nil read (ih (fun t ht => h t (by simp [ht])) (by simp at hl ⊢; omega))

end Spaced

end ParticlePatterns.Grammar
