import ParticlePatterns.Proofs.Parsing.Depth
import ParticlePatterns.Proofs.Term.Locations

/-!
# Entries into the rules of the grammar

The rules once more, each with the rules that it enters. Terms inside of brackets and tracks
inside of blocks are deferred; everything else stands where it is written. A deferred rule is
only entered behind an opening mark, a range mark, a bar or another term, so something has been
read since any entry before, however malformed the text is.
-/

set_option autoImplicit false

namespace ParticlePatterns

namespace Grammar

inductive Nonterminal
  | number
  | symbol
  | list
  | each
  | random
  | block
  | term
  | statement
  | program
deriving DecidableEq, Repr

namespace Traces

open Parsing (Cursor Parser Traced)
open Parsing.Parser (string eof)
open Parsing.Traced (read enter many many1 choice fix silent_read enclosed_read enclosed_string)

section Rules

variable {ν : Type} (inner : Traced Nonterminal (Term ν))

def late : Traced Nonterminal (Term ν) :=
  enter .term true inner

def listOf : Traced Nonterminal (Term ν) :=
  ((((read (string "(")).andThen (read filler)).andThen
    (many ((late inner).skip (read filler)))).skip (read (string ")"))).map .list

def rangeOf (shape : Bracket) (first : Term ν) : Traced Nonterminal (Term ν) :=
  (((((read (string "..")).andThen (read filler)).andThen (late inner)).skip (read filler)).skip
    (read (string shape.right))).map fun last => .list [.symbol shape.range, first, last]

def choiceOf (shape : Bracket) (first : Term ν) : Traced Nonterminal (Term ν) :=
  ((many ((late inner).skip (read filler))).skip (read (string shape.right))).map fun rest =>
    .list (.symbol shape.choice :: first :: rest)

def filledOf (shape : Bracket) : Traced Nonterminal (Term ν) :=
  ((late inner).skip (read filler)).bind fun first =>
    choice [rangeOf inner shape first, choiceOf inner shape first]

def bracketOf (shape : Bracket) : Traced Nonterminal (Term ν) :=
  ((read (string shape.left)).andThen (read filler)).andThen
    (choice [(read (string shape.right)).map fun _ => .symbol shape.angle, filledOf inner shape])

def statementOf : Traced Nonterminal (Term ν) :=
  ((many1 ((enter .term false inner).skip (read lineFiller))).skip
    (many ((read (string ";")).skip (read lineFiller)))).map fun
      | [single] => single
      | terms => .list terms

def programOf : Traced Nonterminal (Program ν) :=
  (read filler).andThen (many ((enter .statement false (statementOf inner)).skip (read filler)))

def trackOf : Traced Nonterminal (Term ν) :=
  (enter .program true (programOf inner)).map .list

def blockOf : Traced Nonterminal (Term ν) :=
  (((read (string "\x7b")).andThen (trackOf inner)).bind fun first =>
    (many ((read (string "|")).andThen (trackOf inner))).map fun rest =>
      .list (.symbol Term.blockHead :: first :: rest)).skip (read (string "\x7d"))

end Rules

section Terms

variable {ν : Type} [Numeral ν]

def termOf (inner : Traced Nonterminal (Term ν)) : Traced Nonterminal (Term ν) :=
  (choice [enter .number false (read number), enter .symbol false (read symbol),
    enter .list false (listOf inner), enter .each false (bracketOf inner .each),
    enter .random false (bracketOf inner .random), enter .block false (blockOf inner)]).label
      "term"

def term : Traced Nonterminal (Term ν) :=
  fix termOf

def wholeProgram : Traced Nonterminal (Program ν) :=
  (enter .program false (programOf term)).skip (read eof)

def wholeTerm : Traced Nonterminal (Term ν) :=
  ((((read filler).andThen (enter .term false term)).skip (read filler)).skip (read eof))

/-! The parsers are those of the grammar. -/

theorem parser_termOf (inner : Traced Nonterminal (Term ν)) :
    (termOf inner).parser = Grammar.termOf inner.parser := rfl

theorem parser_term : (term (ν := ν)).parser = Grammar.term :=
  Traced.parser_fix parser_termOf

theorem parser_wholeProgram : (wholeProgram (ν := ν)).parser = Grammar.wholeProgram :=
  congrArg (fun inner => (Grammar.programOf inner).skip eof) parser_term

theorem parser_wholeTerm : (wholeTerm (ν := ν)).parser = Grammar.wholeTerm :=
  congrArg (fun inner => ((Grammar.filler.andThen inner).skip Grammar.filler).skip eof) parser_term

end Terms

/-! What is read. -/

variable {ν : Type}

theorem onward_filler : filler.Onward :=
  Parser.onward_pattern _ _

theorem onward_lineFiller : lineFiller.Onward :=
  Parser.onward_pattern _ _

theorem onward_number [Numeral ν] : (number : Parser (Term ν)).Onward := by
  rw [number_eq_checked]
  exact (Parser.onward_pattern _ _).checked _ _

theorem onward_symbol : (symbol : Parser (Term ν)).Onward :=
  (Parser.onward_pattern _ _).map _

theorem consumes_number [Numeral ν] : (number : Parser (Term ν)).Consumes := by
  rw [number_eq_checked]
  refine Parser.Consumes.checked (Parser.consumes_pattern fun text n found => ?_) _ _
  unfold Token.number at found
  dsimp only at found
  split at found
  · cases found
  · rename_i some
    cases found
    refine ⟨?_, by have := Nat.pos_of_ne_zero some; omega⟩
    rintro rfl
    simp [Parsing.Recogniser.runLength] at some

theorem consumes_symbol : (symbol : Parser (Term ν)).Consumes := by
  refine Parser.Consumes.map (Parser.consumes_pattern fun text n found => ?_) _
  cases text with
  | nil => cases found
  | cons c rest =>
    rw [Token.symbol] at found
    split at found <;> cases found
    exact ⟨List.cons_ne_nil _ _, Nat.succ_pos _⟩

section Order

theorem enclosed_opening {mark : String} (h : mark ≠ "") :
    ((read (string mark)).andThen (read filler) : Traced Nonterminal String).Enclosed :=
  (enclosed_string h).then_silent (fun _ => silent_read filler) fun _ => onward_filler

theorem orderly_filler : (read filler : Traced Nonterminal String).Orderly :=
  (silent_read filler).orderly onward_filler

variable {inner : Traced Nonterminal (Term ν)} (h : inner.Proper) {shape : Bracket}
  (hl : shape.left ≠ "") (hr : shape.right ≠ "")

include h

theorem orderly_late : (late inner).Orderly :=
  h.orderly.enter Nonterminal.term h.guarded true

theorem orderly_item : ((late inner).skip (read filler)).Orderly :=
  (orderly_late h).skip orderly_filler (.inr (silent_read filler).behind.guarded)

theorem sealed_item : ((late inner).skip (read filler)).Sealed :=
  (h.sealed.enter Nonterminal.term true).skip_silent (silent_read filler) onward_filler

theorem orderly_items : (many ((late inner).skip (read filler))).Orderly :=
  (orderly_item h).many (.inl (sealed_item h))

theorem enclosed_listOf : (listOf inner).Enclosed := by
  have opening := enclosed_opening (by decide : "(" ≠ "")
  have items := opening.bind fun _ => orderly_items h
  exact (items.close (by decide : ")" ≠ "")).map Term.list

include hr

theorem enclosed_rangeOf (first : Term ν) : (rangeOf inner shape first).Enclosed := by
  have last := (enclosed_opening (by decide : ".." ≠ "")).bind fun _ => orderly_late h
  have padded := last.bind (fun value => orderly_filler.map fun _ => value)
    (.inr fun value => ((silent_read filler).map fun _ => value).behind.guarded)
  exact (padded.close hr).map _

/-- A range mark is read before the term behind it is entered, so that another term can be
entered where no range goes on. -/
theorem orderly_filledOf : (filledOf inner shape).Orderly ∧ (filledOf inner shape).Sealed := by
  have range := fun first => enclosed_rangeOf h hr first
  have items := orderly_items h
  have orderly (first : Term ν) : ∀ p ∈ [rangeOf inner shape first, choiceOf inner shape first],
      p.Orderly := by
    simpa using ⟨(range first).orderly, (items.close hr).map _⟩
  have closes (first : Term ν) : ∀ p ∈ [rangeOf inner shape first, choiceOf inner shape first],
      p.Sealed := by
    simpa using ⟨(range first).sealed, (items.sealed_close hr).map _⟩
  have more (first : Term ν) : (choice [rangeOf inner shape first,
      choiceOf inner shape first]).Orderly :=
    .choice (orderly first) (by simpa using .inl (range first).behind)
  exact ⟨(orderly_item h).bind more (.inl (sealed_item h)),
    .of_second (orderly_item h) fun first => .choice (orderly first) (closes first)⟩

include hl

theorem enclosed_bracketOf : (bracketOf inner shape).Enclosed := by
  obtain ⟨filled, closes⟩ := orderly_filledOf h hr
  have empty := (enclosed_string (R := Nonterminal) hr).map fun _ => (.symbol shape.angle : Term ν)
  have orderly : ∀ p ∈ [(read (string shape.right)).map fun _ => .symbol shape.angle,
      filledOf inner shape], p.Orderly := by
    simpa using ⟨empty.orderly, filled⟩
  refine (enclosed_opening hl).bind_sealed (fun _ => .choice orderly ?_) fun _ =>
    .choice orderly ?_
  · simpa using .inl empty.behind
  · simpa using ⟨empty.sealed, closes⟩

omit hl hr

theorem orderly_statementOf : (statementOf inner).Orderly ∧ (statementOf inner).Guarded := by
  have fill := silent_read (R := Nonterminal) lineFiller
  have word := (h.orderly.enter Nonterminal.term h.guarded false).skip
    (fill.orderly onward_lineFiller) (.inr fill.behind.guarded)
  have first := (h.guarded.enter Nonterminal.term).skip h.orderly.onward fill.behind.guarded
    onward_lineFiller
  have mark := (enclosed_string (R := Nonterminal) (by decide : ";" ≠ "")).then_silent
    (fun value => fill.map fun _ => value) fun value => onward_lineFiller.map fun _ => value
  have marks := mark.orderly.many (.inl mark.sealed)
  have more := mark.behind.guarded.many mark.orderly.onward
  have words := word.many1 first
  exact ⟨(words.skip marks (.inr more)).map _, ((first.many1 word.onward).skip words.onward more
    marks.onward).map (words.onward.skip marks.onward) _⟩

theorem orderly_programOf : (programOf inner).Orderly ∧ (programOf inner).Guarded := by
  obtain ⟨statement, start⟩ := orderly_statementOf h
  have fill := (silent_read (R := Nonterminal) filler).behind.guarded
  have item := (statement.enter Nonterminal.statement start false).skip orderly_filler (.inr fill)
  have first := (start.enter Nonterminal.statement).skip statement.onward fill onward_filler
  have more := first.many item.onward
  exact ⟨orderly_filler.bind (fun _ => item.many (.inr first)) (.inr fun _ => more),
    fill.bind onward_filler fun _ => more⟩

theorem enclosed_blockOf : (blockOf inner).Enclosed := by
  obtain ⟨program, start⟩ := orderly_programOf h
  have track : (trackOf inner).Orderly := (program.enter Nonterminal.program start true).map _
  have first := (enclosed_string (R := Nonterminal) (by decide : "\x7b" ≠ "")).bind fun _ => track
  have later := (enclosed_string (R := Nonterminal) (by decide : "|" ≠ "")).bind fun _ => track
  have seam := later.behind.guarded
  have tracks := later.orderly.many (.inr seam)
  have both := first.bind (fun value => tracks.map fun rest =>
      Term.list (.symbol Term.blockHead :: value :: rest))
    (.inr fun value => (seam.many later.orderly.onward).map tracks.onward _)
  exact both.close (by decide)

end Order

variable [Numeral ν]

theorem proper_termOf {inner : Traced Nonterminal (Term ν)} (h : inner.Proper) :
    (termOf inner).Proper := by
  refine .label (.choice ?_) "term"
  have number := enclosed_read (R := Nonterminal) (onward_number (ν := ν)) consumes_number
  have symbol := enclosed_read (R := Nonterminal) (onward_symbol (ν := ν)) consumes_symbol
  simpa using ⟨number.enter _, symbol.enter _, (enclosed_listOf h).enter _,
    (enclosed_bracketOf h (by decide) (by decide)).enter _,
    (enclosed_bracketOf h (by decide) (by decide)).enter _, (enclosed_blockOf h).enter _⟩

theorem proper_term : (term (ν := ν)).Proper :=
  Traced.proper_fix fun _ => proper_termOf

theorem orderly_wholeProgram : (wholeProgram (ν := ν)).Orderly := by
  obtain ⟨program, start⟩ := orderly_programOf (proper_term (ν := ν))
  have last := silent_read (R := Nonterminal) eof
  exact (program.enter Nonterminal.program start false).skip (last.orderly Parser.onward_eof)
    (.inr last.behind.guarded)

theorem orderly_wholeTerm : (wholeTerm (ν := ν)).Orderly := by
  have last := silent_read (R := Nonterminal) eof
  have fill := (silent_read (R := Nonterminal) filler).behind.guarded
  have term := proper_term (ν := ν)
  have only := orderly_filler.bind (fun _ => term.orderly.enter Nonterminal.term term.guarded false)
    (.inr fun _ => term.guarded.enter Nonterminal.term)
  exact (only.skip orderly_filler (.inr fill)).skip (last.orderly Parser.onward_eof)
    (.inr last.behind.guarded)

/-- A list that is not closed: terms are looked up behind its mark, and behind its first item. -/
example : ((wholeTerm (ν := Int)).entries (.ofText "(a".toList)).filter (·.deferred) =
    [⟨.term, 1, true⟩, ⟨.term, 2, true⟩] := by
  decide +kernel

end Traces

end Grammar

end ParticlePatterns
