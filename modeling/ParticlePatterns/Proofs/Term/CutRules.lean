import ParticlePatterns.Proofs.Term.Brackets
import ParticlePatterns.Proofs.Term.Cuts
import ParticlePatterns.Proofs.Term.SettledTokens

/-!
# Rules up to a cut

What the rules find before a cut they find there again. Terms end behind their last character
and never notice. A statement, and each of the terms in a row, ends in front of something else,
and it matters that the cut brings no further item there.
-/

set_option autoImplicit false

namespace ParticlePatterns.Grammar

open Parsing (Cut Greedy Piece Reading)
open Token (Blank IsName IsNumber LineBlank Longest)

variable {ν : Type} {lost line : List Char}

def Clear (here : List Char) : Prop :=
  ∀ c ∈ here.head?, startsFiller c = false ∧ startsTerm c = false

theorem Closes.clear {c : Char} (h : Closes c) (rest : List Char) : Clear (c :: rest) := by
  intro d hd
  cases hd
  exact ⟨h.2.1, h.1⟩

theorem closes_list : Closes ')' :=
  ⟨by decide, by decide, by decide, by decide⟩

theorem closes_track : Closes '|' :=
  ⟨by decide, by decide, by decide, by decide⟩

theorem closes_block : Closes '\x7d' :=
  ⟨by decide, by decide, by decide, by decide⟩

theorem no_piece {blank inside : Char → Prop} {here : List Char}
    (hb : ∀ c, blank c → startsFiller c = true)
    (h : ∀ c ∈ here.head?, startsFiller c = false) (rest : List Char) (v : Unit) :
    ¬Piece blank inside here rest v := by
  intro piece
  cases piece with
  | @blank c _ isBlank => exact absurd (hb c isBlank) (by simp [h c rfl])
  | block _ _ => exact absurd (h '/' rfl) (by decide)
  | line _ _ => exact absurd (h '/' rfl) (by decide)

/-- No filler where none starts. -/
theorem blank_self {here : List Char} (h : ∀ c ∈ here.head?, startsFiller c = false) :
    Blank here here :=
  ⟨[], .stop (no_piece (by rintro c (rfl | rfl | rfl | rfl) <;> decide) h)⟩

theorem blank_newline {here : List Char} (h : ∀ c ∈ here.head?, startsFiller c = false) :
    Blank ('\n' :: here) here := by
  obtain ⟨pieces, rest⟩ := blank_self h
  exact ⟨_, .more (.blank (by simp)) rest⟩

/-- A line ends at a new one. -/
theorem lineBlank_newline (here : List Char) : LineBlank ('\n' :: here) ('\n' :: here) := by
  refine ⟨[], .stop fun rest v piece => ?_⟩
  cases piece with
  | blank isBlank => exact absurd isBlank (by decide)

def Several {T : Type} (fill : List Char → List Char → Prop) (item : Reading T) :
    Reading (List T) :=
  fun here rest values => Greedy (Padded fill item) here rest values ∧ values ≠ []

abbrev Row {T : Type} (item : Reading T) : Reading (List T) :=
  Led Blank (Greedy (Padded Blank item))

section Items

variable {T : Type} {item other : Reading T}

theorem padded_lineBlank_survives (h : Reading.Survives lost line item other) :
    Reading.Survives lost line (Padded LineBlank item) (Padded LineBlank other) := by
  rintro here rest rest' value ⟨there, read, filled⟩ cut
  obtain ⟨there', cut, filled⟩ := filled.survives cut
  obtain ⟨here', cut, read⟩ := h _ _ _ _ read cut
  exact ⟨here', cut, there', read, filled⟩

/-- Several that are there again before a cut, unless the cut lets one begin right behind them
where none did. -/
structure Sturdy (lost line : List Char) (item other : Reading T) : Prop where
  survives : ∀ {here rest rest' value}, item here rest value → Cut lost line rest rest' →
    ((∃ last v, other rest' last v) → ∃ last v, item rest last v) →
    ∃ here', Cut lost line here here' ∧ other here' rest' value
  starts : other.Starts (startsTerm · = true)

theorem sturdy_of_survives (h : Reading.Survives lost line item other)
    (hs : other.Starts (startsTerm · = true)) : Sturdy lost line item other :=
  ⟨fun read cut _ => h _ _ _ _ read cut, hs⟩

theorem blank_before (hs : item.Starts (startsTerm · = true)) {here rest : List Char} {value : T}
    (read : item here rest value) : Blank here here :=
  blank_self fun c hc => startsFiller_of_startsTerm (hs.head read c hc)

theorem none_of_clear (hs : item.Starts (startsTerm · = true)) {here : List Char}
    (clear : Clear here) (rest : List Char) (value : T) : ¬item here rest value := by
  intro read
  obtain ⟨c, tail, rfl, hc⟩ := hs _ _ _ read
  exact absurd hc (by simp [(clear c rfl).2])

theorem row_nil (hs : item.Starts (startsTerm · = true)) {here : List Char}
    (clear : Clear here) : Row item here here [] :=
  ⟨here, blank_self fun c hc => (clear c hc).1,
    .stop fun _ value ⟨_, read, _⟩ => none_of_clear hs clear _ value read⟩

/-- Several before a cut, with filler between them that goes on over it, and further items. -/
theorem Sturdy.row_onward (h : Sturdy lost line item other) {here rest rest' last : List Char}
    {values more : List T} (hr : Row item here rest values) (hc : Cut lost line rest rest')
    (free : (∃ last v, other rest' last v) → ∃ last v, item rest last v)
    (hm : Row other rest' last more) :
    ∃ here', Cut lost line here here' ∧ Row other here' last (values ++ more) := by
  obtain ⟨start, blank, items⟩ := hr
  induction items generalizing here with
  | stop _ =>
    obtain ⟨start', gap, items'⟩ := hm
    obtain ⟨here', cut, gap⟩ := blank.onward hc gap
    exact ⟨here', cut, start', gap, items'⟩
  | @more start next rest value values first later ih =>
    obtain ⟨there, read, filled⟩ := first
    obtain ⟨there', cut, next', filled', items'⟩ := ih hc free filled
    -- an item right behind this one was there before, in the row or at its end
    have free : (∃ last v, other there' last v) → ∃ last v, item there last v := by
      rintro ⟨l, v, behind⟩
      obtain ⟨c, tail, same, starts⟩ := h.starts _ _ _ behind
      have before : c ∈ there.head? := by
        refine cut.head (by simp [same]) ?_
        rintro rfl
        exact absurd starts (by decide)
      obtain ⟨tail, rfl⟩ := List.head?_eq_some_iff.1 before
      obtain rfl := skips_filler.clear c tail next starts filled
      cases later with
      | stop _ =>
        obtain rfl := cut.unique hc
        exact free ⟨l, v, behind⟩
      | more second _ =>
        obtain ⟨m, read, _⟩ := second
        exact ⟨m, _, read⟩
    obtain ⟨start', cut, read⟩ := h.survives read cut free
    obtain ⟨here', cut, blank⟩ := blank.onward cut (blank_before h.starts read)
    exact ⟨here', cut, start', blank, .more ⟨there', read, filled'⟩ items'⟩

/-- A row in front of what closes it. -/
theorem Sturdy.row_closed (h : Sturdy lost line item other) {here rest rest' : List Char}
    {values : List T} (hr : Row item here rest values) (hc : Cut lost line rest rest')
    (clear : Clear rest') :
    ∃ here', Cut lost line here here' ∧ Row other here' rest' values := by
  have whole := h.row_onward hr hc (fun ⟨_, v, read⟩ =>
    absurd read (none_of_clear h.starts clear _ v)) (row_nil h.starts clear)
  rwa [List.append_nil] at whole

end Items

section Statements

variable {term other : Reading (Term ν)}

theorem semicolon_survives : Reading.Survives lost line Semicolon Semicolon := by
  rintro _ rest rest' mark ⟨rfl, same⟩ cut
  exact ⟨';' :: rest', cut.cons ';', rfl, same⟩

theorem no_semicolon_of_cut {here here' : List Char} (cut : Cut lost line here here')
    (h : ∀ rest v, ¬Padded LineBlank Semicolon here rest v) (rest : List Char) (v : String) :
    ¬Padded LineBlank Semicolon here' rest v := by
  rintro ⟨there, ⟨rfl, _⟩, _⟩
  obtain ⟨tail, rfl⟩ := List.head?_eq_some_iff.1 (cut.head (c := ';') rfl (by decide))
  obtain ⟨last, filled⟩ := skips_lineFiller.total tail
  exact h last _ ⟨tail, ⟨rfl, rfl⟩, filled⟩

/-- A statement that no semicolon ends must not be followed by a new term. -/
theorem statement_survives (h : Reading.Survives lost line term other)
    (starts : other.Starts (startsTerm · = true)) {here rest rest' : List Char} {t : Term ν}
    (hr : StatementRule term here rest t) (cut : Cut lost line rest rest')
    (free : ∀ ts, Several LineBlank term here rest ts → (∃ last u, other rest' last u) →
      ∃ last u, term rest last u) :
    ∃ here', Cut lost line here here' ∧ StatementRule other here' rest' t := by
  have terms : ∀ {there ts marks}, Several LineBlank term here there ts →
      Greedy (Padded LineBlank Semicolon) there rest marks → ∃ here' there',
        Cut lost line here here' ∧ Greedy (Padded LineBlank other) here' there' ts ∧
          Greedy (Padded LineBlank Semicolon) there' rest' marks := by
    intro there ts marks items closed
    have read := items.1
    obtain ⟨there', cut_there, closed'⟩ :=
      closed.onward (padded_lineBlank_survives semicolon_survives) cut
        (.stop (no_semicolon_of_cut cut closed.ends))
    rw [List.append_nil] at closed'
    have nothing : ∀ last u, ¬Padded LineBlank other there' last u := by
      rintro last u ⟨m, behind, _⟩
      cases closed' with
      | more first _ =>
        obtain ⟨m, ⟨rfl, _⟩, _⟩ := first
        obtain ⟨c, tail, same, hc⟩ := starts _ _ _ behind
        cases same
        exact absurd hc (by decide)
      | stop _ =>
        cases closed with
        | stop _ =>
          obtain ⟨m, u, before⟩ := free ts items ⟨m, u, behind⟩
          obtain ⟨last, filled⟩ := skips_lineFiller.total m
          exact read.ends last u ⟨m, before, filled⟩
    obtain ⟨here', cut_here, read'⟩ :=
      read.onward (padded_lineBlank_survives h) cut_there (.stop nothing)
    rw [List.append_nil] at read'
    exact ⟨here', there', cut_here, read', closed'⟩
  cases hr with
  | single read closed =>
    obtain ⟨here', there', cut, read, closed⟩ := terms ⟨read, by simp⟩ closed
    exact ⟨here', cut, .single read closed⟩
  | several read many closed =>
    obtain ⟨here', there', cut, read, closed⟩ :=
      terms ⟨read, List.ne_nil_of_length_pos (by omega)⟩ closed
    exact ⟨here', cut, .several read many closed⟩

theorem starts_statementRule (hs : term.Starts (startsTerm · = true)) :
    Reading.Starts (startsTerm · = true) (StatementRule term) := by
  intro here rest t h
  obtain ⟨rest, u, read⟩ := exists_term_of_statement h
  exact hs here rest u read

theorem sturdy_statement (h : Reading.Survives lost line term other)
    (starts : other.Starts (startsTerm · = true)) (hs : other.Shrinks) :
    Sturdy lost line (StatementRule term) (StatementRule other) := by
  refine ⟨fun read cut free => statement_survives h starts read cut fun _ _ => ?_,
    starts_statementRule starts⟩
  rintro ⟨last, u, behind⟩
  obtain ⟨last, s, before⟩ := free (exists_statement_of_term hs behind)
  exact exists_term_of_statement before

end Statements

section Rules

variable {term other : Reading (Term ν)} (h : Reading.Survives lost line term other)
  (starts : other.Starts (startsTerm · = true))

include h starts

theorem listRule_survives : Reading.Survives lost line (ListRule term) (ListRule other) := by
  rintro _ rest rest' _ ⟨there, ts, rfl, row, rfl⟩ cut
  obtain ⟨there', cut, row⟩ := (sturdy_of_survives h starts).row_closed row (cut.cons ')')
    (closes_list.clear rest')
  exact ⟨'(' :: there', cut.cons '(', there', ts, rfl, row, rfl⟩

/-- A term with filler behind it, up to what is no filler. -/
theorem padded_survives {here rest rest' : List Char} {t : Term ν}
    (hr : Padded Blank term here rest t) (cut : Cut lost line rest rest')
    (clear : ∀ c ∈ rest'.head?, startsFiller c = false) :
    ∃ here', Cut lost line here here' ∧ Padded Blank other here' rest' t ∧ Blank here' here' := by
  obtain ⟨there, read, filled⟩ := hr
  obtain ⟨there', cut, filled⟩ := filled.onward cut (blank_self clear)
  obtain ⟨here', cut, read⟩ := h _ _ _ _ read cut
  exact ⟨here', cut, ⟨there', read, filled⟩, blank_before starts read⟩

theorem bracketRule_survives {shape : Bracket} {left right : Char} (hc : Closes right) :
    Reading.Survives lost line (BracketRule term shape left right)
      (BracketRule other shape left right) := by
  intro here rest rest' t hr cut
  have clear := hc.clear rest'
  have clear_filler : ∀ c ∈ (right :: rest').head?, startsFiller c = false :=
    fun c hd => (clear c hd).1
  cases hr with
  | angle blank =>
    obtain ⟨a', cut, blank⟩ := blank.onward (cut.cons right) (blank_self clear_filler)
    exact ⟨left :: a', cut.cons left, .angle blank⟩
  | range blank low high =>
    obtain ⟨start, gap, high⟩ := high
    obtain ⟨start', cut, high, self⟩ := padded_survives h starts high (cut.cons right) clear_filler
    obtain ⟨c', cut, gap⟩ := gap.onward cut self
    obtain ⟨b', cut, low, self⟩ := padded_survives h starts low ((cut.cons '.').cons '.')
      (by simp +decide)
    obtain ⟨a', cut, blank⟩ := blank.onward cut self
    exact ⟨left :: a', cut.cons left, .range blank low ⟨start', gap, high⟩⟩
  | @choice a b _ _ first others blank read more =>
    obtain ⟨a', cut, b', blank, row⟩ := (sturdy_of_survives h starts).row_closed
      (show Row term a (right :: rest) (first :: others) from ⟨b, blank, .more read more⟩)
      (cut.cons right) clear
    cases row with
    | more read more => exact ⟨left :: a', cut.cons left, .choice blank read more⟩

variable (hs : other.Shrinks)

include hs

theorem programRule_survives {here rest rest' : List Char} {p : Program ν}
    (hr : ProgramRule term here rest p) (cut : Cut lost line rest rest') (clear : Clear rest') :
    ∃ here', Cut lost line here here' ∧ ProgramRule other here' rest' p :=
  (sturdy_statement h starts hs).row_closed hr cut clear

/-- The tracks of a block, up to the end of the block. -/
theorem tracks_survive {here there rest rest' : List Char} {first : Program ν}
    {others : List (Program ν)} (track : ProgramRule term here there first)
    (more : Greedy (TrackRule term) there ('\x7d' :: rest) others)
    (cut : Cut lost line rest rest') :
    ∃ here' there', Cut lost line here here' ∧ ProgramRule other here' there' first ∧
      Greedy (TrackRule other) there' ('\x7d' :: rest') others := by
  generalize closing : '\x7d' :: rest = last at more
  induction more generalizing here first with
  | stop _ =>
    subst closing
    obtain ⟨here', cut, track⟩ := programRule_survives h starts hs track (cut.cons '\x7d')
      (closes_block.clear rest')
    exact ⟨here', _, cut, track, .stop fun _ _ ⟨_, same, _⟩ => by cases same⟩
  | more second _ ih =>
    obtain ⟨m, rfl, second⟩ := second
    obtain ⟨m', there', cut, second, later⟩ := ih second closing
    obtain ⟨here', cut, track⟩ := programRule_survives h starts hs track (cut.cons '|')
      (closes_track.clear m')
    exact ⟨here', '|' :: m', cut, track, .more ⟨m', rfl, second⟩ later⟩

theorem blockRule_survives : Reading.Survives lost line (BlockRule term) (BlockRule other) := by
  rintro _ rest rest' _ ⟨a, b, first, others, rfl, track, more, rfl⟩ cut
  obtain ⟨a', b', cut, track, more⟩ := tracks_survive h starts hs track more cut
  exact ⟨'\x7b' :: a', cut.cons _, a', b', first, others, rfl, track, more, rfl⟩

theorem termRule_survives [Numeral ν] :
    Reading.Survives lost line (TermRule term) (TermRule other) := by
  have found : ∀ {r s : Reading (Term ν)} {here rest rest' t},
      Reading.Survives lost line r s → (∀ {a b u}, s a b u → TermRule other a b u) →
      r here rest t → Cut lost line rest rest' →
      ∃ here', Cut lost line here here' ∧ TermRule other here' rest' t := by
    intro r s here rest rest' t survives rule read cut
    obtain ⟨here', cut, read⟩ := survives _ _ _ _ read cut
    exact ⟨here', cut, rule read⟩
  intro here rest rest' t hr cut
  cases hr with
  | number hr =>
    obtain ⟨text, value, longest, read, rfl⟩ := hr
    obtain ⟨here', cut, longest⟩ := longest.survives Token.newline_not_mem_number cut
    exact ⟨here', cut, .number ⟨text, value, longest, read, rfl⟩⟩
  | symbol hr =>
    obtain ⟨text, longest, rfl⟩ := hr
    obtain ⟨here', cut, longest⟩ := longest.survives Token.newline_not_mem_name cut
    exact ⟨here', cut, .symbol ⟨text, longest, rfl⟩⟩
  | list hr => exact found (listRule_survives h starts) .list hr cut
  | each hr => exact found (bracketRule_survives h starts brackets_each.closes) .each hr cut
  | random hr => exact found (bracketRule_survives h starts brackets_random.closes) .random hr cut
  | block hr => exact found (blockRule_survives h starts hs) .block hr cut

end Rules

variable [Numeral ν]

/-- A term before a cut is there whatever comes behind it. -/
theorem derives_survives {here rest rest' : List Char} {t : Term ν} (hr : Derives here rest t)
    (cut : Cut lost line rest rest') :
    ∃ here', Cut lost line here here' ∧ Derives here' rest' t := by
  rw [Derives] at hr
  have inner : Reading.Survives lost line
      (fun start rest (t : Term ν) => ∃ _ : start.length < here.length, Derives start rest t)
      Derives := by
    rintro start _ _ _ ⟨shorter, inner⟩ cut
    exact derives_survives inner cut
  obtain ⟨here', cut, read⟩ := termRule_survives inner starts_derives shrinks_derives _ _ _ _ hr cut
  exact ⟨here', cut, derives_iff.2 read⟩
termination_by here.length

theorem survives_derives : Reading.Survives lost line (Derives (ν := ν)) Derives :=
  fun _ _ _ _ => derives_survives

end ParticlePatterns.Grammar
