import ParticlePatterns.Proofs.Term.Legibility
import ParticlePatterns.Proofs.Term.Lexemes

/-!
# The language of patterns

The rules of the grammar, as relations between a text, the rest behind what is derived and
what that denotes:

    list      = '(' filler (term filler)* ')'
    each      = '[' filler ( ']' | term filler ( range | (term filler)* ']' ) )
    range     = '..' filler term filler ']'
    random    = each, with '<' and '>'
    block     = '{' program ('|' program)* '}'
    term      = number | symbol | list | each | random | block
    statement = (term lineFiller)+ (';' lineFiller)*
    program   = filler (statement filler)*

Alternatives are open, repetitions are greedy. The terms inside a term are derived from
shorter texts, and this makes the derivations of terms the only solution of the rules.
-/

set_option autoImplicit false

namespace ParticlePatterns.Grammar

open Parsing (Greedy Reading)
open Token (Blank IsName IsNumber LineBlank Longest)

variable {ν : Type}

def Padded {T : Type} (fill : List Char → List Char → Prop) (item : Reading T) : Reading T :=
  fun here rest value => ∃ there, item here there value ∧ fill there rest

def Led {T : Type} (fill : List Char → List Char → Prop) (item : Reading T) : Reading T :=
  fun here rest value => ∃ there, fill here there ∧ item there rest value

def Semicolon : Reading String :=
  fun here rest mark => here = ';' :: rest ∧ mark = ";"

section Rules

variable (term : Reading (Term ν))

inductive StatementRule : List Char → List Char → Term ν → Prop
  | single {here there rest : List Char} {t : Term ν} {marks : List String} :
      Greedy (Padded LineBlank term) here there [t] →
      Greedy (Padded LineBlank Semicolon) there rest marks → StatementRule here rest t
  | several {here there rest : List Char} {ts : List (Term ν)} {marks : List String} :
      Greedy (Padded LineBlank term) here there ts → 2 ≤ ts.length →
      Greedy (Padded LineBlank Semicolon) there rest marks → StatementRule here rest (.list ts)

def ProgramRule : Reading (Program ν) :=
  Led Blank (Greedy (Padded Blank (StatementRule term)))

def TrackRule : Reading (Program ν) :=
  fun here rest p => ∃ there, here = '|' :: there ∧ ProgramRule term there rest p

def NumberRule [Numeral ν] : Reading (Term ν) :=
  fun here rest t => ∃ text value, Longest IsNumber text here rest ∧
    Numeral.read? text = some value ∧ t = .number value

def SymbolRule : Reading (Term ν) :=
  fun here rest t => ∃ text, Longest IsName text here rest ∧ t = .symbol (String.ofList text)

def ListRule : Reading (Term ν) :=
  fun here rest t => ∃ there ts, here = '(' :: there ∧
    Led Blank (Greedy (Padded Blank term)) there (')' :: rest) ts ∧ t = .list ts

inductive BracketRule (shape : Bracket) (left right : Char) : List Char → List Char → Term ν → Prop
  | angle {a rest : List Char} : Blank a (right :: rest) →
      BracketRule shape left right (left :: a) rest (.symbol shape.angle)
  | range {a b c rest : List Char} {low high : Term ν} : Blank a b →
      Padded Blank term b ('.' :: '.' :: c) low →
      Led Blank (Padded Blank term) c (right :: rest) high →
      BracketRule shape left right (left :: a) rest (.list [.symbol shape.range, low, high])
  | choice {a b c rest : List Char} {first : Term ν} {others : List (Term ν)} : Blank a b →
      Padded Blank term b c first → Greedy (Padded Blank term) c (right :: rest) others →
      BracketRule shape left right (left :: a) rest
        (.list (.symbol shape.choice :: first :: others))

def BlockRule : Reading (Term ν) :=
  fun here rest t => ∃ a b first others, here = '\x7b' :: a ∧ ProgramRule term a b first ∧
    Greedy (TrackRule term) b ('\x7d' :: rest) others ∧
    t = .list (.symbol Term.blockHead :: (first :: others).map .list)

inductive TermRule [Numeral ν] : List Char → List Char → Term ν → Prop
  | number {here rest : List Char} {t : Term ν} : NumberRule here rest t → TermRule here rest t
  | symbol {here rest : List Char} {t : Term ν} : SymbolRule here rest t → TermRule here rest t
  | list {here rest : List Char} {t : Term ν} : ListRule term here rest t → TermRule here rest t
  | each {here rest : List Char} {t : Term ν} : BracketRule term .each '[' ']' here rest t →
      TermRule here rest t
  | random {here rest : List Char} {t : Term ν} : BracketRule term .random '<' '>' here rest t →
      TermRule here rest t
  | block {here rest : List Char} {t : Term ν} : BlockRule term here rest t → TermRule here rest t

end Rules

/-! What is read gets shorter. -/

theorem length_le_of_blank {here rest : List Char} (h : Blank here rest) :
    rest.length ≤ here.length := by
  obtain ⟨pieces, h⟩ := h
  exact h.length_le Parsing.Piece.shrinks

theorem length_le_of_lineBlank {here rest : List Char} (h : LineBlank here rest) :
    rest.length ≤ here.length := by
  obtain ⟨pieces, h⟩ := h
  exact h.length_le Parsing.Piece.shrinks

section Shorter

variable {term : Reading (Term ν)} {here rest : List Char}

theorem shrinks_padded {T : Type} {fill : List Char → List Char → Prop} {item : Reading T}
    (hf : ∀ {here rest}, fill here rest → rest.length ≤ here.length) (hs : item.Shrinks) :
    (Padded fill item).Shrinks := by
  rintro here rest value ⟨there, h, filled⟩
  exact (hf filled).trans_lt (hs _ _ _ h)

theorem shrinks_semicolon : Semicolon.Shrinks := by
  rintro _ rest _ ⟨rfl, _⟩
  exact Nat.lt_succ_self _

theorem shrinks_statementRule (hs : term.Shrinks) : Reading.Shrinks (StatementRule term) := by
  have terms : ∀ {here rest ts}, Greedy (Padded LineBlank term) here rest ts → ts ≠ [] →
      rest.length < here.length := by
    intro here rest ts h hne
    have items := shrinks_padded length_le_of_lineBlank hs
    cases h with
    | stop _ => exact absurd rfl hne
    | more first later => exact (later.length_le items).trans_lt (items _ _ _ first)
  have shorter := shrinks_padded length_le_of_lineBlank shrinks_semicolon
  intro here rest t h
  cases h with
  | single line marks => exact (marks.length_le shorter).trans_lt (terms line (by simp))
  | several line many marks =>
    refine (marks.length_le shorter).trans_lt (terms line ?_)
    rintro rfl
    simp at many

/-- A statement starts with a term. -/
theorem exists_term_of_statement {t : Term ν} (h : StatementRule term here rest t) :
    ∃ rest u, term here rest u := by
  have first : ∀ {there ts}, Greedy (Padded LineBlank term) here there ts → ts ≠ [] →
      ∃ rest u, term here rest u := by
    intro there ts line some
    cases line with
    | stop _ => exact absurd rfl some
    | more read _ =>
      obtain ⟨rest, read, _⟩ := read
      exact ⟨rest, _, read⟩
  cases h with
  | single line _ => exact first line (by simp)
  | several line many _ =>
    refine first line ?_
    rintro rfl
    simp at many

theorem statement_of_line {there : List Char} {t : Term ν} {ts : List (Term ν)}
    {marks : List String} (line : Greedy (Padded LineBlank term) here there (t :: ts))
    (closed : Greedy (Padded LineBlank Semicolon) there rest marks) :
    ∃ s, StatementRule term here rest s := by
  cases ts with
  | nil => exact ⟨t, .single line closed⟩
  | cons u ts => exact ⟨_, .several line (by simp) closed⟩

/-- One term is enough for a statement. -/
theorem exists_statement_of_term (hs : term.Shrinks) {t : Term ν} (h : term here rest t) :
    ∃ rest s, StatementRule term here rest s := by
  obtain ⟨there, pieces, filled⟩ := Greedy.exists_of_shrinks Parsing.Piece.shrinks rest
  obtain ⟨there, ts, later⟩ :=
    Greedy.exists_of_shrinks (shrinks_padded length_le_of_lineBlank hs) there
  obtain ⟨last, marks, closed⟩ :=
    Greedy.exists_of_shrinks (shrinks_padded length_le_of_lineBlank shrinks_semicolon) there
  obtain ⟨s, read⟩ := statement_of_line (.more ⟨rest, h, pieces, filled⟩ later) closed
  exact ⟨last, s, read⟩

theorem length_le_of_programRule (hs : term.Shrinks) {p : Program ν}
    (h : ProgramRule term here rest p) : rest.length ≤ here.length := by
  obtain ⟨there, blank, statements⟩ := h
  have items := shrinks_padded length_le_of_blank (shrinks_statementRule hs)
  exact (statements.length_le items).trans (length_le_of_blank blank)

theorem shrinks_trackRule (hs : term.Shrinks) : (TrackRule term).Shrinks := by
  rintro here rest p ⟨there, rfl, h⟩
  exact Nat.lt_succ_of_le (length_le_of_programRule hs h)

theorem length_lt_of_longest {kind : List Char → Prop} {text : List Char}
    (h : Longest kind text here rest) (hne : text ≠ []) : rest.length < here.length := by
  have some := List.length_pos_iff.2 hne
  rw [h.split, List.length_append]
  omega

theorem shrinks_bracketRule (hs : term.Shrinks) {shape : Bracket} {left right : Char} :
    Reading.Shrinks (BracketRule term shape left right) := by
  intro here rest t h
  have items := shrinks_padded length_le_of_blank hs
  cases h with
  | angle blank =>
    have := length_le_of_blank blank
    simp only [List.length_cons] at this ⊢
    omega
  | range blank low high =>
    obtain ⟨start, gap, high⟩ := high
    have := length_le_of_blank blank
    have := items _ _ _ low
    have := length_le_of_blank gap
    have := items _ _ _ high
    simp only [List.length_cons] at *
    omega
  | choice blank first others =>
    have := length_le_of_blank blank
    have := items _ _ _ first
    have := others.length_le items
    simp only [List.length_cons] at *
    omega

theorem shrinks_numberRule [Numeral ν] : Reading.Shrinks (NumberRule (ν := ν)) := by
  rintro here rest _ ⟨text, value, longest, _, rfl⟩
  refine length_lt_of_longest longest ?_
  obtain ⟨sign, whole, fraction, exponent, rfl, _, digits, _⟩ := longest.ofKind
  simp [digits.1]

theorem shrinks_symbolRule : Reading.Shrinks (SymbolRule (ν := ν)) := by
  rintro here rest _ ⟨text, longest, rfl⟩
  refine length_lt_of_longest longest ?_
  obtain ⟨c, tail, rfl, _⟩ := longest.ofKind
  simp

theorem shrinks_listRule (hs : term.Shrinks) : (ListRule term).Shrinks := by
  rintro here rest _ ⟨a, ts, rfl, ⟨b, blank, items⟩, rfl⟩
  have := length_le_of_blank blank
  have := items.length_le (shrinks_padded length_le_of_blank hs)
  simp only [List.length_cons] at *
  omega

theorem shrinks_blockRule (hs : term.Shrinks) : (BlockRule term).Shrinks := by
  rintro here rest _ ⟨a, b, first, others, rfl, track, tracks, rfl⟩
  have := length_le_of_programRule hs track
  have := tracks.length_le (shrinks_trackRule hs)
  simp only [List.length_cons] at *
  omega

theorem shrinks_termRule [Numeral ν] (hs : term.Shrinks) : Reading.Shrinks (TermRule term) := by
  intro here rest t h
  cases h with
  | number h => exact shrinks_numberRule _ _ _ h
  | symbol h => exact shrinks_symbolRule _ _ _ h
  | list h => exact shrinks_listRule hs _ _ _ h
  | each h => exact shrinks_bracketRule hs _ _ _ h
  | random h => exact shrinks_bracketRule hs _ _ _ h
  | block h => exact shrinks_blockRule hs _ _ _ h

end Shorter

/-! What is read starts with what is read for. -/

section Heads

variable {term : Reading (Term ν)}

theorem starts_numberRule [Numeral ν] : Reading.Starts
    (fun c => c.isDigit = true ∨ c = '-' ∨ c = '+') (NumberRule (ν := ν)) := by
  rintro here rest _ ⟨text, value, longest, _, rfl⟩
  obtain ⟨sign, whole, fraction, exponent, rfl, signed, ⟨hne, digits⟩, _⟩ := longest.ofKind
  obtain ⟨d, more, rfl⟩ := List.exists_cons_of_ne_nil hne
  rw [longest.split]
  obtain rfl | rfl | rfl := signed
  · exact ⟨d, _, rfl, .inl (digits d (by simp))⟩
  · exact ⟨'+', _, rfl, .inr (.inr rfl)⟩
  · exact ⟨'-', _, rfl, .inr (.inl rfl)⟩

theorem starts_symbolRule :
    Reading.Starts (Token.isSymbolStart · = true) (SymbolRule (ν := ν)) := by
  rintro here rest _ ⟨text, longest, rfl⟩
  obtain ⟨c, tail, rfl, start, _⟩ := longest.ofKind
  exact ⟨c, tail ++ rest, longest.split, start⟩

theorem starts_listRule : (ListRule term).Starts (· = '(') := by
  rintro here rest _ ⟨a, ts, rfl, _⟩
  exact ⟨'(', a, rfl, rfl⟩

theorem starts_bracketRule {shape : Bracket} {left right : Char} :
    Reading.Starts (· = left) (BracketRule term shape left right) := by
  intro here rest t h
  cases h <;> exact ⟨left, _, rfl, rfl⟩

theorem starts_blockRule : (BlockRule term).Starts (· = '\x7b') := by
  rintro here rest _ ⟨a, b, first, others, rfl, _⟩
  exact ⟨'\x7b', a, rfl, rfl⟩

theorem starts_termRule [Numeral ν] : Reading.Starts (startsTerm · = true) (TermRule term) := by
  have single : ∀ {r : Reading (Term ν)} {d : Char}, r.Starts (· = d) → startsTerm d = true →
      r.Starts (startsTerm · = true) := fun h hd => h.mono fun c hc => hc ▸ hd
  intro here rest t h
  cases h with
  | number h => exact starts_numberRule.mono (by simp +contextual [startsTerm, or_imp]) _ _ _ h
  | symbol h => exact starts_symbolRule.mono (by simp +contextual [startsTerm]) _ _ _ h
  | list h => exact single starts_listRule (by decide) _ _ _ h
  | each h => exact single starts_bracketRule (by decide) _ _ _ h
  | random h => exact single starts_bracketRule (by decide) _ _ _ h
  | block h => exact single starts_blockRule (by decide) _ _ _ h

end Heads

/-! A rule depends on the terms at its own text and at shorter ones, and the rule for terms
only on those at shorter ones. -/

section Agreement

open Parsing.Reading (AgreeUpTo)

variable {term other : Reading (Term ν)} {n : Nat}

theorem agree_padded {T : Type} {fill : List Char → List Char → Prop} {r s : Reading T}
    (h : AgreeUpTo n r s) : AgreeUpTo n (Padded fill r) (Padded fill s) :=
  fun here hl _ value => exists_congr fun there => and_congr_left' (h here hl there value)

theorem statementRule_agree (hs : term.Shrinks) (h : AgreeUpTo n term other)
    {here rest : List Char} {t : Term ν} (hl : here.length ≤ n)
    (hr : StatementRule term here rest t) : StatementRule other here rest t := by
  have items := shrinks_padded length_le_of_lineBlank hs
  cases hr with
  | single line marks => exact .single (line.agree items (agree_padded h) hl) marks
  | several line many marks => exact .several (line.agree items (agree_padded h) hl) many marks

variable (hs : term.Shrinks) (ho : other.Shrinks) (h : AgreeUpTo n term other)

include hs ho h

theorem programRule_agree {here rest : List Char} {p : Program ν} (hl : here.length ≤ n)
    (hr : ProgramRule term here rest p) : ProgramRule other here rest p := by
  obtain ⟨there, blank, statements⟩ := hr
  have same : AgreeUpTo n (StatementRule term) (StatementRule other) := fun here hl rest t =>
    ⟨statementRule_agree hs h hl, statementRule_agree ho h.symm hl⟩
  exact ⟨there, blank, statements.agree
    (shrinks_padded length_le_of_blank (shrinks_statementRule hs)) (agree_padded same)
    ((length_le_of_blank blank).trans hl)⟩

theorem agree_trackRule : AgreeUpTo n (TrackRule term) (TrackRule other) := by
  intro here hl rest p
  constructor
  · rintro ⟨there, rfl, hr⟩
    exact ⟨there, rfl, programRule_agree hs ho h (Nat.le_of_succ_le hl) hr⟩
  · rintro ⟨there, rfl, hr⟩
    exact ⟨there, rfl, programRule_agree ho hs h.symm (Nat.le_of_succ_le hl) hr⟩

omit ho in
theorem bracketRule_agree {shape : Bracket} {left right : Char} {here rest : List Char}
    {t : Term ν} (hl : here.length ≤ n + 1) (hr : BracketRule term shape left right here rest t) :
    BracketRule other shape left right here rest t := by
  have items := shrinks_padded length_le_of_blank hs
  have same : AgreeUpTo n (Padded Blank term) (Padded Blank other) := agree_padded h
  cases hr with
  | angle blank => exact .angle blank
  | @range a b c _ _ _ blank low high =>
    obtain ⟨start, gap, high⟩ := high
    have l1 := length_le_of_blank blank
    have l2 := items _ _ _ low
    have l3 := length_le_of_blank gap
    simp only [List.length_cons] at hl l2
    exact .range blank ((same b (by omega) _ _).1 low)
      ⟨start, gap, (same start (by omega) _ _).1 high⟩
  | @choice a b c _ _ _ blank first others =>
    have l1 := length_le_of_blank blank
    have l2 := items _ _ _ first
    simp only [List.length_cons] at hl
    exact .choice blank ((same b (by omega) _ _).1 first) (others.agree items same (by omega))

omit ho in
theorem listRule_agree {here rest : List Char} {t : Term ν} (hl : here.length ≤ n + 1)
    (hr : ListRule term here rest t) : ListRule other here rest t := by
  obtain ⟨a, ts, rfl, ⟨b, blank, items⟩, rfl⟩ := hr
  have shorter := length_le_of_blank blank
  simp only [List.length_cons] at hl
  exact ⟨a, ts, rfl, ⟨b, blank,
    items.agree (shrinks_padded length_le_of_blank hs) (agree_padded h) (by omega)⟩, rfl⟩

theorem blockRule_agree {here rest : List Char} {t : Term ν} (hl : here.length ≤ n + 1)
    (hr : BlockRule term here rest t) : BlockRule other here rest t := by
  obtain ⟨a, b, first, others, rfl, track, tracks, rfl⟩ := hr
  have shorter := length_le_of_programRule hs track
  simp only [List.length_cons] at hl
  exact ⟨a, b, first, others, rfl, programRule_agree hs ho h (by omega) track,
    tracks.agree (shrinks_trackRule hs) (agree_trackRule hs ho h) (by omega), rfl⟩

theorem termRule_agree [Numeral ν] {here rest : List Char} {t : Term ν}
    (hl : here.length ≤ n + 1) (hr : TermRule term here rest t) : TermRule other here rest t := by
  cases hr with
  | number hr => exact .number hr
  | symbol hr => exact .symbol hr
  | list hr => exact .list (listRule_agree hs h hl hr)
  | each hr => exact .each (bracketRule_agree hs h hl hr)
  | random hr => exact .random (bracketRule_agree hs h hl hr)
  | block hr => exact .block (blockRule_agree hs ho h hl hr)

end Agreement

variable [Numeral ν]

def Derives (here rest : List Char) (t : Term ν) : Prop :=
  TermRule (fun a b u => ∃ _ : a.length < here.length, Derives a b u) here rest t
termination_by here.length

theorem length_lt_of_derives {here rest : List Char} {t : Term ν} (h : Derives here rest t) :
    rest.length < here.length := by
  rw [Derives] at h
  exact shrinks_termRule (fun a b u ⟨shorter, inner⟩ => length_lt_of_derives inner) _ _ _ h
termination_by here.length

theorem shrinks_derives : Reading.Shrinks (Derives (ν := ν)) :=
  fun _ _ _ h => length_lt_of_derives h

/-- Terms are what the rules say, with terms again inside. -/
theorem derives_iff {here rest : List Char} {t : Term ν} :
    Derives here rest t ↔ TermRule Derives here rest t := by
  let inside : Reading (Term ν) := fun a b u => ∃ _ : a.length < here.length, Derives a b u
  have shrinks : inside.Shrinks := fun a b u ⟨_, inner⟩ => length_lt_of_derives inner
  have same : Reading.AgreeUpTo (here.length - 1) inside Derives := by
    refine fun a hl b u => ⟨fun ⟨_, inner⟩ => inner, fun inner => ⟨?_, inner⟩⟩
    have := length_lt_of_derives inner
    omega
  have room : here.length ≤ here.length - 1 + 1 := by omega
  rw [Derives]
  exact ⟨termRule_agree shrinks shrinks_derives same room,
    termRule_agree shrinks_derives shrinks same.symm room⟩

theorem starts_derives : Reading.Starts (startsTerm · = true) (Derives (ν := ν)) :=
  fun here rest t h => starts_termRule here rest t (derives_iff.1 h)

/-- The rules have no other solution. -/
theorem eq_derives {term : Reading (Term ν)} (hs : term.Shrinks)
    (h : ∀ here rest t, term here rest t ↔ TermRule term here rest t) : term = Derives := by
  have same : ∀ n, Reading.AgreeUpTo n term Derives := by
    intro n
    induction n with
    | zero =>
      refine fun here hl rest t => ⟨fun ht => ?_, fun ht => ?_⟩
      · have := hs _ _ _ ht
        omega
      · have := length_lt_of_derives ht
        omega
    | succ n ih =>
      intro here hl rest t
      rw [h, derives_iff]
      exact ⟨termRule_agree hs shrinks_derives ih hl,
        termRule_agree shrinks_derives hs ih.symm hl⟩
  funext here rest t
  exact propext (same _ here le_rfl rest t)

end ParticlePatterns.Grammar
