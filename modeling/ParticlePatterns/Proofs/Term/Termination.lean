import ParticlePatterns.Proofs.Parsing.Limits
import ParticlePatterns.Proofs.Term.Entries

/-!
# Parsing ends

Every text is read to an end, as a program or as a term. Where a rule calls itself the text has
become shorter, so there are no more rounds than characters, and each round adds no more parsers
inside of each other than the rules are deep.
-/

set_option autoImplicit false

namespace ParticlePatterns

namespace Grammar

namespace Traces

open Parsing (Cursor Parser Traced)
open Parsing.Parser (string eof halts_string onward_string consumes_string)
open Parsing.Traced (read many choice within_read)

variable {ν : Type}

theorem halts_filler : filler.Halts :=
  Parser.halts_pattern _ _

theorem halts_lineFiller : lineFiller.Halts :=
  Parser.halts_pattern _ _

theorem halts_number [Numeral ν] : (number : Parser (Term ν)).Halts := by
  rw [number_eq_checked]
  exact (Parser.halts_pattern _ _).checked _ _

theorem halts_symbol : (symbol : Parser (Term ν)).Halts :=
  (Parser.halts_pattern _ _).map _

theorem within_string (text : String) (n : Nat) :
    (read (string text) : Traced Nonterminal String).Within n 1 :=
  within_read (halts_string text) (onward_string text) n

theorem within_filler (n : Nat) : (read filler : Traced Nonterminal String).Within n 1 :=
  within_read halts_filler onward_filler n

theorem within_lineFiller (n : Nat) : (read lineFiller : Traced Nonterminal String).Within n 1 :=
  within_read halts_lineFiller onward_lineFiller n

section Rules

variable {inner : Traced Nonterminal (Term ν)} {n levels : Nat} (h : inner.Within n levels)

theorem within_opening {T : Type} {mark : String} (hm : mark ≠ "") {q : Traced Nonterminal T}
    (hq : q.Within n levels) :
    (((read (string mark)).andThen (read filler)).andThen q).Within (n + 1) (levels + 3) := by
  have opening := (within_string mark (n + 1)).bind fun _ => within_filler (n + 1)
  have consumes := (consumes_string hm).bind fun _ => onward_filler.forward
  exact (opening.behind consumes fun _ => hq).mono (by omega)

include h

theorem within_item : ((late inner).skip (read filler)).Within n (levels + 3) :=
  ((h.enter Nonterminal.term true).skip (within_filler n)).mono (by omega)

theorem within_listOf : (listOf inner).Within (n + 1) (levels + 9) := by
  have items := within_opening (by decide : "(" ≠ "") (within_item h).many
  exact ((items.skip (within_string ")" (n + 1))).map Term.list).mono (by omega)

theorem within_rangeOf (shape : Bracket) (first : Term ν) :
    (rangeOf inner shape first).Within (n + 1) (levels + 7) := by
  have last := within_opening (by decide : ".." ≠ "") (h.enter Nonterminal.term true)
  have closed := (last.skip (within_filler (n + 1))).skip (within_string shape.right (n + 1))
  exact (closed.map _).mono (by omega)

theorem within_choiceOf (shape : Bracket) (first : Term ν) :
    (choiceOf inner shape first).Within n (levels + 6) := by
  have items := (within_item h).many.skip (within_string shape.right n)
  exact (items.map _).mono (by omega)

theorem within_filledOf (shape : Bracket) : (filledOf inner shape).Within n (levels + 9) := by
  have range := fun first => (within_rangeOf h shape first).shorter n.le_succ
  have items := fun first => within_choiceOf h shape first
  have more (first : Term ν) : (choice [rangeOf inner shape first,
      choiceOf inner shape first]).Within n (levels + 8) := by
    refine .choice ?_
    simpa using ⟨range first, (items first).mono (by omega)⟩
  exact ((within_item h).bind more).mono (by omega)

theorem within_bracketOf {shape : Bracket} (hl : shape.left ≠ "") :
    (bracketOf inner shape).Within (n + 1) (levels + 13) := by
  have empty := (within_string shape.right n).map fun _ => (.symbol shape.angle : Term ν)
  refine within_opening hl (.choice (a := levels + 9) ?_)
  simpa using ⟨empty.mono (by omega), within_filledOf h shape⟩

theorem within_statementOf : (statementOf inner).Within n (levels + 8) := by
  have words := ((h.enter Nonterminal.term false).skip (within_lineFiller n)).many1
  have marks := ((within_string ";" n).skip (within_lineFiller n)).many
  exact ((words.skip marks).map _).mono (by omega)

theorem within_programOf : (programOf inner).Within n (levels + 12) := by
  have item := ((within_statementOf h).enter Nonterminal.statement false).skip (within_filler n)
  exact ((within_filler n).bind fun _ => item.many).mono (by omega)

theorem within_trackOf {mark : String} (hm : mark ≠ "") :
    ((read (string mark)).andThen (trackOf inner)).Within (n + 1) (levels + 15) := by
  have track := ((within_programOf h).enter Nonterminal.program true).map Term.list
  exact ((within_string mark (n + 1)).behind (consumes_string hm) fun _ => track).mono (by omega)

theorem within_blockOf : (blockOf inner).Within (n + 1) (levels + 19) := by
  have first := within_trackOf h (by decide : "\x7b" ≠ "")
  have later := (within_trackOf h (by decide : "|" ≠ "")).many
  have both := first.bind fun value => later.map fun rest =>
    Term.list (.symbol Term.blockHead :: value :: rest)
  exact (both.skip (within_string "\x7d" (n + 1))).mono (by omega)

end Rules

variable [Numeral ν]

theorem within_termOf {inner : Traced Nonterminal (Term ν)} {n levels : Nat}
    (h : inner.Within n levels) : (termOf inner).Within (n + 1) (levels + 22) := by
  have number := within_read (R := Nonterminal) (halts_number (ν := ν)) onward_number (n + 1)
  have symbol := within_read (R := Nonterminal) (halts_symbol (ν := ν)) onward_symbol (n + 1)
  refine .label (.choice (a := levels + 20) ?_) "term"
  have entered (p : Traced Nonterminal (Term ν)) (rule : Nonterminal) {a : Nat}
      (hp : p.Within (n + 1) a) (ha : a ≤ levels + 19) :
      (Traced.enter rule false p).Within (n + 1) (levels + 20) :=
    (hp.enter rule false).mono (by omega)
  simpa using ⟨entered _ _ number (by omega), entered _ _ symbol (by omega),
    entered _ _ (within_listOf h) (by omega),
    entered _ _ (within_bracketOf h (by decide)) (by omega),
    entered _ _ (within_bracketOf h (by decide)) (by omega), entered _ _ (within_blockOf h) le_rfl⟩

theorem within_term (n : Nat) : (term (ν := ν)).Within n (22 * n) :=
  Traced.within_fix (fun _ _ _ => within_termOf) n

theorem within_wholeProgram (n : Nat) : (wholeProgram (ν := ν)).Within n (22 * n + 14) := by
  have last := within_read (R := Nonterminal) Parser.halts_eof Parser.onward_eof n
  exact (((within_programOf (within_term n)).enter _ false).skip last).mono (by omega)

theorem within_wholeTerm (n : Nat) : (wholeTerm (ν := ν)).Within n (22 * n + 4) := by
  have last := within_read (R := Nonterminal) Parser.halts_eof Parser.onward_eof n
  have fill := within_filler n
  have only := fill.bind fun _ => (within_term (ν := ν) n).enter Nonterminal.term false
  exact ((only.skip fill).skip last).mono (by omega)

/-- From the start of a text the traced parser ends, with a value or a failure, and that is the
answer. Every deferred entry lies behind all entries before it, and there are no more parsers
inside of each other than the text is long, but for a factor and the rules of the first round. -/
structure Terminates {T : Type} (p : Traced Nonterminal T) (text : String) : Prop where
  ends : (∃ value next, p.parser (Cursor.ofText text.toList) = .ok value next ∧
      p.parser.parse text = .ok value) ∨
    ∃ failure stop, p.parser (Cursor.ofText text.toList) = .fail failure stop ∧
      p.parser.parse text = .error failure
  fresh : (p.entries (Cursor.ofText text.toList)).Pairwise fun earlier e =>
    e.deferred → earlier.offset < e.offset
  shallow : p.depth (Cursor.ofText text.toList) ≤ 22 * text.length + 36

theorem terminates {T : Type} {p : Traced Nonterminal T} (orderly : p.Orderly)
    (within : ∀ n, p.Within n (22 * n + 14)) (text : String) : Terminates p text := by
  have short : (Cursor.ofText text.toList).rest.length < text.length + 1 :=
    Nat.lt_succ_of_le text.length_toList.le
  refine ⟨Parser.parse_cases ((within _).halts _ short), orderly.fresh _, ?_⟩
  exact ((within _).shallow _ short).trans (by omega)

theorem halts_of_within {T : Type} {p : Traced Nonterminal T} {levels : Nat → Nat}
    (h : ∀ n, p.Within n (levels n)) : p.parser.Halts ∧ p.parser.Forward :=
  ⟨fun here => (h (here.rest.length + 1)).halts here (Nat.lt_succ_self _), (h 0).onward.forward⟩

end Traces

open Parsing (Cursor)
open Parsing.Parser

inductive Repeated (ν : Type) [Numeral ν] : {T : Type} → Parsing.Parser T → Prop
  | items : Repeated ν ((term : Parsing.Parser (Term ν)).skip filler)
  | words : Repeated ν ((term : Parsing.Parser (Term ν)).skip lineFiller)
  | marks : Repeated ν ((string ";").skip lineFiller)
  | statements : Repeated ν ((statement : Parsing.Parser (Term ν)).skip filler)
  | tracks : Repeated ν ((string "|").andThen ((program (ν := ν)).map Term.list))

section Limits

variable {ν : Type} {p q : Parsing.Parser (Term ν)} (h : p.Below q)

include h

theorem below_listOf : (listOf p).Below (listOf q) :=
  (((below_refl _).bind fun _ => (h.skip (below_refl _)).many).skip (below_refl _)).map _

theorem below_rangeOf (shape : Bracket) (first : Term ν) :
    (rangeOf p shape first).Below (rangeOf q shape first) :=
  ((((below_refl _).bind fun _ => h).skip (below_refl _)).skip (below_refl _)).map _

theorem below_choiceOf (shape : Bracket) (first : Term ν) :
    (choiceOf p shape first).Below (choiceOf q shape first) :=
  ((h.skip (below_refl _)).many.skip (below_refl _)).map _

theorem below_bracketOf (shape : Bracket) : (bracketOf p shape).Below (bracketOf q shape) := by
  have more (first : Term ν) := Below.choice
    (.cons (below_rangeOf h shape first) (.cons (below_choiceOf h shape first) .nil))
  have filled := (h.skip (below_refl filler)).bind more
  exact (below_refl _).bind fun _ => .choice (.cons (below_refl _) (.cons filled .nil))

theorem below_statementOf : (statementOf p).Below (statementOf q) :=
  ((h.skip (below_refl _)).many1.skip (below_refl _)).map _

theorem below_programOf : (programOf p).Below (programOf q) :=
  (below_refl filler).bind fun _ => ((below_statementOf h).skip (below_refl filler)).many

theorem below_blockOf : (blockOf p).Below (blockOf q) := by
  have track := (below_programOf h).map Term.list
  have tracks := ((below_refl (string "|")).bind fun _ => track).many
  exact (((below_refl _).bind fun _ => track).bind fun _ => tracks.map _).skip (below_refl _)

theorem below_termOf [Numeral ν] : (termOf p).Below (termOf q) :=
  .label (.choice (.cons (below_refl _) (.cons (below_refl _) (.cons (below_listOf h)
    (.cons (below_bracketOf h .each) (.cons (below_bracketOf h .random)
      (.cons (below_blockOf h) .nil))))))) "term"

end Limits

variable {ν : Type} [Numeral ν]

/-- Terms as the grammar has them, with terms inside. -/
theorem term_eq_termOf : (term : Parsing.Parser (Term ν)) = termOf term := by
  refine fix_eq_body (fun _ _ h => below_termOf h) fun levels => ?_
  rw [← Parsing.Traced.parser_unroll Traces.parser_termOf]
  exact (Parsing.Traced.within_unroll (fun _ _ _ => Traces.within_termOf) levels).halts

theorem Repeated.halts {T : Type} {item : Parsing.Parser T} (h : Repeated ν item) :
    item.Halts ∧ item.Forward := by
  have inner := Traces.within_term (ν := ν)
  cases h with
  | items =>
    have both := Traces.halts_of_within fun n => Traces.within_item (inner n)
    rwa [← Traces.parser_term]
  | words =>
    have both := Traces.halts_of_within fun n => ((inner n).enter Nonterminal.term false).skip
      (Traces.within_lineFiller n)
    rwa [← Traces.parser_term]
  | marks =>
    exact Traces.halts_of_within fun n => (Traces.within_string ";" n).skip
      (Traces.within_lineFiller n)
  | statements =>
    have both := Traces.halts_of_within fun n => (Traces.within_statementOf (inner n)).skip
      (Traces.within_filler n)
    rwa [statement, ← Traces.parser_term]
  | tracks =>
    have both := Traces.halts_of_within fun n =>
      (Traces.within_trackOf (inner n) (by decide : "|" ≠ "")).shorter n.le_succ
    rwa [program, ← Traces.parser_term]

end Grammar

open Parsing (Cursor Parser)
open Parsing.Parser (many many1 LoopEnds)
open Grammar.Traces (Terminates)

/-- Every text is read to an end, as a program and as a term. The rules call themselves without a
limit, but whenever a deferred rule is entered something has been read since any entry before it,
and the recursion is no deeper than linear in the text. Whatever the rules repeat ends. In
general a repetition of what ends and does not go back, with a first item ahead of it or not,
has no more runs than there are bytes left, and one, and only the last may have read nothing. -/
theorem parsing_ends {ν : Type} [Numeral ν] :
    (Grammar.term : Parser (Term ν)) = Grammar.termOf Grammar.term ∧
    (Grammar.Traces.wholeProgram.parser = (Grammar.wholeProgram : Parser (Program ν)) ∧
      Grammar.Traces.wholeTerm.parser = (Grammar.wholeTerm : Parser (Term ν))) ∧
    (∀ text, Terminates (Grammar.Traces.wholeProgram (ν := ν)) text ∧
      Terminates (Grammar.Traces.wholeTerm (ν := ν)) text) ∧
    (∀ {T : Type} {item : Parser T}, Grammar.Repeated ν item → ∀ here,
      ∃ places, LoopEnds item here (many item here) places) ∧
    ∀ {T : Type} {p : Parser T}, p.Halts → p.Forward → ∀ here,
      (∃ places, LoopEnds p here (many p here) places) ∧ many1 p here ≠ .exhausted ∧
      ∀ first there, p here = .ok first there → ∃ places, LoopEnds p there (many p there) places ∧
        many1 p here = (many p there).map (first :: ·) := by
  refine ⟨Grammar.term_eq_termOf, ⟨Grammar.Traces.parser_wholeProgram,
    Grammar.Traces.parser_wholeTerm⟩, fun text => ⟨?_, ?_⟩, fun item here => ?_, ?_⟩
  · exact Grammar.Traces.terminates Grammar.Traces.orderly_wholeProgram
      Grammar.Traces.within_wholeProgram text
  · exact Grammar.Traces.terminates Grammar.Traces.orderly_wholeTerm
      (fun n => (Grammar.Traces.within_wholeTerm n).mono (by omega)) text
  · exact Parsing.Parser.loopEnds_many item.halts.1 item.halts.2 here
  · intro T p halts forward here
    refine ⟨Parsing.Parser.loopEnds_many halts forward here,
      Parsing.Parser.halts_many1 halts forward here, fun first there run => ?_⟩
    obtain ⟨places, loop⟩ := Parsing.Parser.loopEnds_many halts forward there
    exact ⟨places, loop, Parsing.Parser.many1_of_ok run⟩

/-- Filler may be empty. Repeated it is read up to the end of a comment and once more, and what
that last run has read is kept. -/
theorem parsing_ends_filler :
    let here := Cursor.ofText "/**/ x".toList
    let there : Cursor := ⟨['x'], 5, 1, 6⟩
    LoopEnds Grammar.filler here (.ok ["/**/ ", ""] there) [here, there] ∧
      many1 Grammar.filler here = .ok ["/**/ ", ""] there ∧
      ∃ places, LoopEnds (Grammar.statement.skip Grammar.filler : Parser (Term Int)) here
        (many (Grammar.statement.skip Grammar.filler) here) places := by
  intro here there
  obtain ⟨_, _, _, repeated, loops⟩ := parsing_ends (ν := Int)
  have first : Grammar.filler here = .ok "/**/ " there := rfl
  have second : Grammar.filler there = .ok "" there := rfl
  have last : many Grammar.filler there = .ok [""] there := rfl
  obtain ⟨⟨places, loop⟩, _, behind⟩ :=
    loops Grammar.Traces.halts_filler Grammar.Traces.onward_filler.forward here
  obtain ⟨_, _, same⟩ := behind "/**/ " there first
  obtain ⟨rfl, came⟩ := loop.unique _ _ (.goes first (by decide) (.idles second rfl))
  refine ⟨?_, ?_, repeated .statements here⟩
  · rw [← came] at loop
    exact loop
  · rw [same, last]
    rfl

end ParticlePatterns
