import ParticlePatterns.Number.Double
import ParticlePatterns.Proofs.Term.Brackets
import ParticlePatterns.Proofs.Term.SettledTokens

/-!
# What is parsed

A text is parsed as a program, or as a term, exactly if the rules of the grammar derive that
from all of it. Where the parser breaks off, a term has begun that cannot be derived; what
closes a repetition never starts like a term, so no other reading goes on from there.

Each rule settles what it stands for if the terms inside shorter texts are settled, and the
number of levels carries this to all texts.
-/

set_option autoImplicit false

namespace ParticlePatterns

namespace Grammar

open Parsing (Cursor Greedy Reading)
open Parsing.Parser
open Token (Blank IsNumber LineBlank Longest)

variable {ν : Type} [Numeral ν]

section Rules

def RangeRest (shape : Bracket) (right : Char) (first : Term ν) : Reading (Term ν) :=
  ((Reading.after ['.', '.'] (Led Blank (Padded Blank Derives))).before [right]).map fun last =>
    .list [.symbol shape.range, first, last]

def ChoiceRest (shape : Bracket) (right : Char) (first : Term ν) : Reading (Term ν) :=
  (Reading.before (Greedy (Padded Blank Derives)) [right]).map fun rest =>
    .list (.symbol shape.choice :: first :: rest)

def MoreRest (shape : Bracket) (right : Char) (first : Term ν) : Reading (Term ν) :=
  (RangeRest shape right first).either (ChoiceRest shape right first)

def AngleRest (shape : Bracket) (right : Char) : Reading (Term ν) :=
  fun here rest t => here = right :: rest ∧ t = .symbol shape.angle

def InsideRest (shape : Bracket) (right : Char) : Reading (Term ν) :=
  (AngleRest shape right).either ((Padded Blank Derives).bind (MoreRest shape right))

variable {inner : Parsing.Parser (Term ν)} {n : Nat} {here : Cursor}

theorem repeats_semicolon : Repeats (Stuck ν) (string ";") Semicolon n := by
  refine ⟨shrinks_semicolon, fun here _ => settles_string ";", ?_, fun here _ nothing moves => ?_⟩
  · rintro _ rest v hs ⟨rfl, _⟩
    exact not_stuck (by decide) rest hs
  · obtain ⟨rest, rfl⟩ := exists_of_not_stops moves
    exact absurd ⟨rfl, rfl⟩ (nothing rest ";")

variable (hi : Repeats (Stuck ν) inner Derives n)

include hi

theorem settles_statementOf (hl : here.rest.length < n) :
    (statementOf inner).Settles (Stuck ν) (StatementRule Derives) here := by
  have line := skips_lineFiller.repeats hi
  have marks := skips_lineFiller.repeats (repeats_semicolon (ν := ν) (n := n))
  have both := (line.many1 hl).bind
    (fun ts m read => (marks.many ((read.1.length_le line.shrinks).trans_lt hl)).map fun _ => ts)
    fun ts => marks.keeps.map fun _ => ts
  refine (both.map _).congr fun rest t => ⟨?_, ?_⟩
  · intro h
    cases h with
    | @single there _ _ marks line closed =>
      exact ⟨[t], ⟨there, [t], ⟨line, by simp⟩, marks, closed, rfl⟩, rfl⟩
    | @several there _ ts marks line many closed =>
      refine ⟨ts, ⟨there, ts, ⟨line, ?_⟩, marks, closed, rfl⟩, ?_⟩
      · rintro rfl
        simp at many
      · match ts, many with
        | _ :: _ :: _, _ => rfl
  · rintro ⟨ts, ⟨there, _, ⟨line, some⟩, marks, closed, rfl⟩, rfl⟩
    match ts, some with
    | [t], _ => exact .single line closed
    | _ :: _ :: _, _ => exact .several line (by simp) closed

theorem repeats_statementOf : Repeats (Stuck ν) (statementOf inner) (StatementRule Derives) n := by
  have line := skips_lineFiller.repeats hi
  refine ⟨shrinks_statementRule shrinks_derives, fun here => settles_statementOf hi, ?_, ?_⟩
  · intro here rest t hs h
    obtain ⟨rest, u, read⟩ := exists_term_of_statement h
    exact hs.2 rest u read
  · intro here hl nothing moves
    refine line.stuck_of_none here hl (fun there t read => ?_) fun stops =>
      moves (((stops.bind _).bind _).bind _)
    obtain ⟨m, read, _⟩ := read
    obtain ⟨rest, t, statement⟩ := exists_statement_of_term shrinks_derives read
    exact nothing rest t statement

theorem settles_programOf (hl : here.rest.length < n) :
    (programOf inner).Settles (Stuck ν) (ProgramRule Derives) here := by
  have statements := skips_filler.repeats (repeats_statementOf hi)
  exact skips_filler.before
    (fun there filled => statements.many ((skips_filler.length_le filled).trans_lt hl))
    statements.keeps

theorem keeps_programRule : Reading.Keeps (Stuck ν) (ProgramRule (ν := ν) Derives) :=
  skips_filler.keeps_led (skips_filler.repeats (repeats_statementOf hi)).keeps

theorem settles_track (mark : String) {c : Char} (hm : mark.toList = [c])
    (hl : here.rest.length ≤ n) : ((string mark).andThen ((programOf inner).map Term.list)).Settles
      (Stuck ν) (((ProgramRule Derives).map Term.list).after [c]) here := by
  rw [← hm]
  refine Settles.after_string mark (fun there split => ?_) ((keeps_programRule hi).map _)
  refine (settles_programOf hi ?_).map _
  rw [split, hm] at hl
  exact hl

theorem repeats_track : Repeats (Stuck ν) ((string "|").andThen ((programOf inner).map Term.list))
    ((TrackRule Derives).map Term.list) n := by
  refine ⟨?_, fun here hl => ?_, ?_, fun here _ nothing moves => ?_⟩
  · rintro here rest _ ⟨p, track, rfl⟩
    exact shrinks_trackRule shrinks_derives _ _ _ track
  · refine (settles_track hi "|" rfl hl.le).congr fun rest t => ⟨?_, ?_⟩
    · rintro ⟨p, ⟨there, split, track⟩, rfl⟩
      exact ⟨there, split, p, track, rfl⟩
    · rintro ⟨there, split, p, track, rfl⟩
      exact ⟨p, ⟨there, split, track⟩, rfl⟩
  · rintro _ rest _ hs ⟨p, ⟨there, rfl, _⟩, rfl⟩
    exact not_stuck (by decide) there hs
  · -- from any text a program is derived, perhaps an empty one
    obtain ⟨there, rfl⟩ := exists_of_not_stops fun stops => moves (stops.bind _)
    obtain ⟨start, blank⟩ := skips_filler.total there
    obtain ⟨rest, p, statements⟩ := Greedy.exists_of_shrinks
      (skips_filler.repeats (repeats_statementOf hi)).shrinks start
    exact absurd ⟨p, ⟨there, rfl, start, blank, statements⟩, rfl⟩ (nothing rest (.list p))

theorem settles_blockOf (hl : here.rest.length ≤ n) :
    (blockOf inner).Settles (Stuck ν) (BlockRule Derives) here := by
  have tracks := repeats_track hi
  have opened := settles_track hi "\x7b" rfl hl
  have both := opened.bind
    (fun first m read => (tracks.many (by
      obtain ⟨there, split, p, track, _⟩ := read
      have := length_le_of_programRule shrinks_derives track
      rw [split] at hl
      exact this.trans_lt hl)).map fun rest => Term.list (.symbol Term.blockHead :: first :: rest))
    fun first => tracks.keeps.map _
  refine (settles_closed both "\x7d" rfl (by decide)).congr fun rest t => ⟨?_, ?_⟩
  · rintro ⟨a, b, first, others, split, track, tracks, rfl⟩
    exact ⟨b, _, ⟨a, split, first, track, rfl⟩, _, Greedy.map_iff.2 ⟨others, tracks, rfl⟩, rfl⟩
  · rintro ⟨b, _, ⟨a, split, first, track, rfl⟩, _, more, rfl⟩
    obtain ⟨others, tracks, rfl⟩ := Greedy.map_iff.1 more
    exact ⟨a, b, first, others, split, track, tracks, rfl⟩

theorem settles_listOf (hl : here.rest.length ≤ n) :
    (listOf inner).Settles (Stuck ν) (ListRule Derives) here := by
  have terms := skips_filler.repeats hi
  have opened := settles_marked "(" (by decide)
    (fun there shorter => terms.many (shorter.trans_le hl)) terms.keeps
  refine ((settles_closed opened ")" rfl (by decide)).map Term.list).congr fun rest t => ⟨?_, ?_⟩
  · rintro ⟨there, ts, split, items, rfl⟩
    exact ⟨ts, ⟨there, split, items⟩, rfl⟩
  · rintro ⟨ts, ⟨there, split, items⟩, rfl⟩
    exact ⟨there, ts, split, items, rfl⟩

variable {shape : Bracket} {left right : Char} (hb : Brackets shape left right)

include hb

theorem settles_rangeOf (hl : here.rest.length ≤ n) (first : Term ν) :
    (rangeOf inner shape first).Settles (Stuck ν) (RangeRest shape right first) here := by
  have terms := skips_filler.repeats hi
  have last := settles_marked ".." (by decide)
    (fun there shorter => terms.settles there (shorter.trans_le hl)) terms.keeps_item
  rw [rangeOf, andThen_skip]
  exact (settles_closed last shape.right hb.right_eq hb.closes.1).map _

theorem settles_choiceOf (hl : here.rest.length < n) (first : Term ν) :
    (choiceOf inner shape first).Settles (Stuck ν) (ChoiceRest shape right first) here := by
  have others := (skips_filler.repeats hi).many hl
  exact (settles_closed others shape.right hb.right_eq hb.closes.1).map _

theorem keeps_more (first : Term ν) : (MoreRest shape right first).Keeps (Stuck ν) := by
  have closes := not_stuck (ν := ν) hb.closes.1
  have dots : ∀ rest, ¬Stuck ν ('.' :: '.' :: rest) :=
    fun rest => not_stuck (by decide) ('.' :: rest)
  refine .either ?_ ?_
  · exact ((Reading.keeps_after dots _).before closes).map _
  · exact ((skips_filler.repeats hi).keeps.before closes).map _

/-- More terms do not start like the rest of a range. -/
theorem settles_more (hl : here.rest.length < n) (first : Term ν) :
    (choice [rangeOf inner shape first, choiceOf inner shape first]).Settles (Stuck ν)
      (MoreRest shape right first) here := by
  have others := settles_choiceOf hi hb hl first
  refine (settles_rangeOf hi hb hl.le first).tryEach_cons others.tryEach_last ?_ none
  rintro rest _ ⟨others, items, _⟩
  refine range_stops fun c hc => ?_
  rintro rfl
  generalize here.rest = text at items hc
  cases items with
  | stop _ =>
    cases hc
    exact hb.closes.2.2.2 rfl
  | more read _ =>
    obtain ⟨_, read, _⟩ := read
    obtain ⟨d, tail, rfl, hd⟩ := starts_derives _ _ _ read
    cases hc
    exact absurd hd (by decide)

theorem keeps_inside : (InsideRest (ν := ν) shape right).Keeps (Stuck ν) := by
  refine .either ?_ ((skips_filler.repeats hi).keeps_item.bind (keeps_more hi hb))
  rintro _ rest _ hs ⟨rfl, _⟩
  exact absurd hs (not_stuck hb.closes.1 rest)

/-- A term does not start like what closes the brackets. -/
theorem settles_inside (hl : here.rest.length < n) :
    (choice [(string shape.right).map fun _ => .symbol shape.angle,
      (inner.skip filler).bind fun first => choice
        [rangeOf inner shape first, choiceOf inner shape first]]).Settles (Stuck ν)
      (InsideRest shape right) here := by
  have terms := skips_filler.repeats hi
  have empty : ((string shape.right).map fun _ => (.symbol shape.angle : Term ν)).Settles (Stuck ν)
      (AngleRest shape right) here := by
    refine ((settles_string shape.right).map _).congr fun rest t => ?_
    simp [AngleRest, Reading.map, hb.right_eq]
  have filled := (terms.settles here hl).bind
    (fun first m read => settles_more hi hb ((terms.shrinks _ _ _ read).trans hl) first)
    (keeps_more hi hb)
  refine empty.tryEach_cons filled.tryEach_last ?_ none
  rintro rest t ⟨there, first, ⟨_, read, _⟩, _⟩
  obtain ⟨c, tail, split, hc⟩ := starts_derives _ _ _ read
  refine (char_stops hb.right_eq fun d hd => ?_).bind _
  rw [split] at hd
  cases hd
  rintro rfl
  exact absurd hc (by simp [hb.closes.1])

theorem settles_bracketOf (hl : here.rest.length ≤ n) : (bracketOf inner shape).Settles (Stuck ν)
    (BracketRule Derives shape left right) here := by
  have opened := settles_marked shape.left (by simp [hb.left_eq])
    (fun there shorter => settles_inside hi hb (shorter.trans_le hl)) (keeps_inside hi hb)
  rw [hb.left_eq] at opened
  refine opened.congr fun rest t => ⟨?_, ?_⟩
  · intro h
    generalize here.rest = text at h ⊢
    cases h with
    | angle blank => exact ⟨_, rfl, _, blank, .inl ⟨rfl, rfl⟩⟩
    | range blank low high =>
      exact ⟨_, rfl, _, blank, .inr ⟨_, _, low, .inl ⟨_, ⟨_, rfl, high⟩, rfl⟩⟩⟩
    | choice blank first others =>
      exact ⟨_, rfl, _, blank, .inr ⟨_, _, first, .inr ⟨_, others, rfl⟩⟩⟩
  · generalize here.rest = text
    rintro ⟨_, rfl, _, blank, ⟨rfl, rfl⟩ | ⟨_, _, low, more⟩⟩
    · exact .angle blank
    · obtain ⟨_, ⟨_, rfl, high⟩, rfl⟩ | ⟨_, others, rfl⟩ := more
      · exact .range blank low high
      · exact .choice blank low others

omit hi hb

theorem termRule_iff {rules : Reading (Term ν)} {here rest : List Char} {t : Term ν} :
    TermRule rules here rest t ↔ NumberRule here rest t ∨ SymbolRule here rest t ∨
      ListRule rules here rest t ∨ BracketRule rules .each '[' ']' here rest t ∨
      BracketRule rules .random '<' '>' here rest t ∨ BlockRule rules here rest t := by
  constructor
  · intro h
    cases h with
    | number h => exact .inl h
    | symbol h => exact .inr (.inl h)
    | list h => exact .inr (.inr (.inl h))
    | each h => exact .inr (.inr (.inr (.inl h)))
    | random h => exact .inr (.inr (.inr (.inr (.inl h))))
    | block h => exact .inr (.inr (.inr (.inr (.inr h))))
  · rintro (h | h | h | h | h | h)
    · exact .number h
    · exact .symbol h
    · exact .list h
    · exact .each h
    · exact .random h
    · exact .block h

include hi

/-- The alternatives start differently, so that none takes a text from another. -/
theorem settles_termOf (hl : here.rest.length ≤ n) :
    (termOf inner).Settles (Stuck ν) Derives here := by
  have fromBlock := Alternatives.last (settles_blockOf hi hl) starts_blockRule
  have fromRandom := Alternatives.cons (settles_bracketOf hi brackets_random hl)
    starts_bracketRule fromBlock fun h => bracketOf_stops inner brackets_random.left_eq
      fun c hc => by rw [h c hc]; decide
  have fromEach := Alternatives.cons (settles_bracketOf hi brackets_each hl)
    starts_bracketRule fromRandom fun h => bracketOf_stops inner brackets_each.left_eq
      fun c hc => by obtain rfl | rfl := h c hc <;> decide
  have fromList := Alternatives.cons (settles_listOf hi hl) starts_listRule fromEach
    fun h => listOf_stops inner fun c hc => by obtain rfl | rfl | rfl := h c hc <;> decide
  have fromSymbol := Alternatives.cons settles_symbol starts_symbolRule fromList
    fun h => symbol_stops fun c hc => by obtain rfl | rfl | rfl | rfl := h c hc <;> decide
  have fromNumber := Alternatives.cons settles_number starts_numberRule fromSymbol
    fun h => number_stops fun c hc => by
      obtain start | rfl | rfl | rfl | rfl := h c hc
      · refine ⟨Token.not_digit_of_isSymbolStart start, ?_, ?_⟩ <;>
          (rintro rfl; exact absurd start (by decide))
      all_goals decide
  refine ((fromNumber.settles none).label "term").congr fun rest t => ?_
  exact derives_iff.trans termRule_iff

end Rules

/-- Of a parser for terms: it gives up only where none starts. -/
theorem repeats_of_settles {p : Parsing.Parser (Term ν)} {n : Nat}
    (settles : ∀ here : Cursor, here.rest.length < n → p.Settles (Stuck ν) Derives here)
    (stops : ∀ here : List Char, here.length < n → (∀ c ∈ here.head?, startsTerm c = false) →
      p.Stops here) : Repeats (Stuck ν) p Derives n := by
  refine ⟨shrinks_derives, settles, fun here rest t hs => hs.2 rest t, ?_⟩
  intro here hl nothing moves
  refine ⟨?_, nothing⟩
  by_contra other
  refine moves (stops here hl fun c hc => Bool.eq_false_iff.2 fun starts => other ?_)
  obtain ⟨tail, rfl⟩ := List.head?_eq_some_iff.1 hc
  exact ⟨c, tail, rfl, starts⟩

/-- With levels enough for the text. -/
theorem repeats_unroll (levels : Nat) :
    Repeats (Stuck ν) (unroll termOf levels) (Derives (ν := ν)) levels := by
  induction levels with
  | zero =>
    exact repeats_of_settles (fun _ hl => absurd hl (Nat.not_lt_zero _))
      fun _ hl => absurd hl (Nat.not_lt_zero _)
  | succ levels ih =>
    exact repeats_of_settles (fun here hl => settles_termOf ih (Nat.le_of_lt_succ hl))
      fun here _ => unroll_stops (Nat.succ_pos levels)

theorem repeats_term (n : Nat) : Repeats (Stuck ν) term (Derives (ν := ν)) n := by
  have levels : ∀ here : Cursor,
      (term : Parsing.Parser (Term ν)) here = unroll termOf (here.rest.length + 1) here := by
    intro here
    rw [term, fix]
  refine repeats_of_settles (fun here _ => ?_) fun text _ h here same => ?_
  · rw [Parsing.Parser.Settles, levels]
    exact (repeats_unroll (here.rest.length + 1)).settles here (Nat.lt_succ_self _)
  · rw [levels]
    exact unroll_stops (Nat.succ_pos _) h here same

theorem not_stuck_nil : ¬Stuck ν [] := by
  rintro ⟨⟨c, tail, same, _⟩, _⟩
  cases same

theorem settles_wholeProgram (here : Cursor) : wholeProgram.Settles (Stuck ν)
    (fun here rest p => ProgramRule (ν := ν) Derives here [] p ∧ rest = []) here :=
  (settles_programOf (repeats_term _) (Nat.lt_succ_self _)).skip_eof not_stuck_nil

theorem settles_wholeTerm (here : Cursor) : wholeTerm.Settles (Stuck ν)
    (fun here rest t => Padded Blank (Led Blank (Derives (ν := ν))) here [] t ∧ rest = [])
    here := by
  refine Settles.skip_eof (skips_filler.behind (skips_filler.before (fun there _ => ?_) ?_))
    not_stuck_nil
  · exact (repeats_term _).settles there (Nat.lt_succ_self _)
  · exact (repeats_term 0).keeps_item

/-- A literal of a double is one that does not overflow. -/
theorem numberRule_float_iff {here rest : List Char} {t : Term Float} : NumberRule here rest t ↔
    ∃ text, Longest IsNumber text here rest ∧ (Literal.ofText text).toFloat.isFinite = true ∧
      t = .number (Literal.ofText text).toFloat := by
  refine exists_congr fun text => ?_
  simp [Numeral.read?, and_assoc]

end Grammar

/-- A text is accepted, as a program or as a term with filler around it, exactly if all of it
is derived as that. What is derived as a term is what the rules say, and nothing else that
gets shorter solves them; a double is a number there only if its literal does not overflow. -/
theorem parse_eq_ok_iff_derives {ν : Type} [Numeral ν] :
    (∀ text (p : Program ν), Program.parse text = .ok p ↔
      Grammar.ProgramRule Grammar.Derives text.toList [] p) ∧
    (∀ text (t : Term ν), Term.parse text = .ok t ↔
      Grammar.Padded Token.Blank (Grammar.Led Token.Blank Grammar.Derives) text.toList [] t) ∧
    (∀ derived : Parsing.Reading (Term ν), derived = Grammar.Derives ↔ derived.Shrinks ∧
      ∀ here rest t, derived here rest t ↔ Grammar.TermRule derived here rest t) ∧
    ∀ here rest (t : Term Float), Grammar.NumberRule here rest t ↔
      ∃ text, Token.Longest Token.IsNumber text here rest ∧
        (Literal.ofText text).toFloat.isFinite = true ∧
        t = .number (Literal.ofText text).toFloat := by
  refine ⟨fun text p => ?_, fun text t => ?_, fun derived => ⟨?_, ?_⟩, fun _ _ _ =>
    Grammar.numberRule_float_iff⟩
  · refine (Parsing.Parser.parse_eq_ok_iff (Grammar.settles_wholeProgram _) ?_).trans (by simp)
    rintro _ _ ⟨_, rfl⟩
    exact Grammar.not_stuck_nil
  · refine (Parsing.Parser.parse_eq_ok_iff (Grammar.settles_wholeTerm _) ?_).trans (by simp)
    rintro _ _ ⟨_, rfl⟩
    exact Grammar.not_stuck_nil
  · rintro rfl
    exact ⟨Grammar.shrinks_derives, fun _ _ _ => Grammar.derives_iff⟩
  · rintro ⟨shrinks, rules⟩
    exact Grammar.eq_derives shrinks rules

end ParticlePatterns
