import ParticlePatterns.Proofs.Term.Acceptance
import ParticlePatterns.Proofs.Term.Storage

/-!
# What is parsed can be printed

Only finite numbers are read, and the longest name a text starts with is a symbol from end to
end. The other symbols of a term are heads that brackets and blocks put there, a fixed few. So
every term that is derived can be printed, and whatever was parsed survives being printed or
stored.
-/

set_option autoImplicit false

namespace ParticlePatterns

variable {ν : Type}

/-- Numbers whose literals denote nothing, rather than something infinite. -/
class Numeral.Bounded (ν : Type) [Numeral ν] : Prop where
  isFinite_of_read? (text : List Char) (x : ν) : Numeral.read? text = some x →
    Numeral.isFinite x = true

instance : Numeral.Bounded Float where
  isFinite_of_read? text x h := by
    simp only [Numeral.read?, Option.ite_none_right_eq_some, Option.some.injEq] at h
    obtain ⟨finite, rfl⟩ := h
    exact finite

instance : Numeral.Bounded Int where
  isFinite_of_read? _ _ _ := rfl

instance : Numeral.Bounded (Option Int) where
  isFinite_of_read? text x h := by
    obtain ⟨n, _, rfl⟩ := Option.map_eq_some_iff.1
      (show (Numeral.read? text : Option Int).map some = some x from h)
    rfl

namespace Parsing

variable {T : Type} {P : T → Prop}

def Reading.Gives (P : T → Prop) (r : Reading T) : Prop :=
  ∀ here rest value, r here rest value → P value

theorem Reading.Gives.greedy {item : Reading T} (h : item.Gives P) :
    Reading.Gives (fun values => ∀ value ∈ values, P value) (Greedy item) := by
  intro here rest values hg
  induction hg with
  | stop _ => simp
  | more first _ ih => exact List.forall_mem_cons.2 ⟨h _ _ _ first, ih⟩

end Parsing

namespace Grammar

open Parsing (Greedy Reading)

section Fillers

variable {T : Type} {P : T → Prop} {fill : List Char → List Char → Prop} {item : Reading T}

theorem gives_padded (h : item.Gives P) : (Padded fill item).Gives P :=
  fun here _ value ⟨there, read, _⟩ => h here there value read

theorem gives_led (h : item.Gives P) : (Led fill item).Gives P :=
  fun _ rest value ⟨there, _, read⟩ => h there rest value read

end Fillers

/-- The whole of a name is found as one. -/
theorem isSymbol_of_isName {text : List Char} (h : Token.IsName text) :
    Token.isSymbol (String.ofList text) = true := by
  obtain ⟨c, tail, rfl, start, parts⟩ := h
  have run : Parsing.Recogniser.runLength Token.isSymbolPart tail = tail.length := by
    rw [Parsing.Recogniser.runLength, List.takeWhile_eq_self_iff.2 parts]
  rw [Token.isSymbol, Parsing.Recogniser.isWhole_iff, String.toList_ofList, Token.symbol,
    if_pos start, run, List.length_cons]

section Rules

variable [Numeral ν]

/-- A list that a rule heads with a symbol of its own. -/
theorem printable_headed {head : String} (hh : Token.isSymbol head = true) {ts : List (Term ν)}
    (h : ∀ t ∈ ts, t.Printable) : (Term.list (.symbol head :: ts)).Printable :=
  .list (List.forall_mem_cons.2 ⟨.symbol hh, h⟩)

theorem gives_numberRule [Numeral.Bounded ν] :
    Reading.Gives Term.Printable (NumberRule (ν := ν)) := by
  rintro here rest _ ⟨text, value, _, read, rfl⟩
  exact .number (Numeral.Bounded.isFinite_of_read? text value read)

theorem gives_symbolRule : Reading.Gives Term.Printable (SymbolRule (ν := ν)) := by
  rintro here rest _ ⟨text, longest, rfl⟩
  exact .symbol (isSymbol_of_isName longest.ofKind)

variable {term : Reading (Term ν)} (h : term.Gives Term.Printable)

include h

/-- A single term stands for itself, and several for their list. -/
theorem gives_statementRule : Reading.Gives Term.Printable (StatementRule term) := by
  intro here rest t hr
  have terms : Reading.Gives (fun ts => ∀ t ∈ ts, t.Printable)
      (Greedy (Padded Token.LineBlank term)) := (gives_padded h).greedy
  cases hr with
  | single line _ => exact terms _ _ _ line t (by simp)
  | several line _ _ => exact .list (terms _ _ _ line)

theorem gives_programRule :
    Reading.Gives (fun p => ∀ t ∈ p, t.Printable) (ProgramRule term) :=
  gives_led (gives_padded (gives_statementRule h)).greedy

theorem gives_listRule : Reading.Gives Term.Printable (ListRule term) := by
  rintro here rest _ ⟨there, ts, _, terms, rfl⟩
  exact .list (gives_led (gives_padded h).greedy _ _ _ terms)

theorem gives_bracketRule {shape : Bracket} (hs : shape = .each ∨ shape = .random)
    {left right : Char} : Reading.Gives Term.Printable (BracketRule term shape left right) := by
  have heads : Token.isSymbol shape.angle = true ∧ Token.isSymbol shape.range = true ∧
      Token.isSymbol shape.choice = true := by
    obtain rfl | rfl := hs <;> decide
  have item : (Padded Token.Blank term).Gives Term.Printable := gives_padded h
  intro here rest t hr
  cases hr with
  | angle _ => exact .symbol heads.1
  | range _ low high =>
    refine printable_headed heads.2.1 ?_
    simpa using ⟨item _ _ _ low, gives_led item _ _ _ high⟩
  | choice _ first others =>
    exact printable_headed heads.2.2
      (List.forall_mem_cons.2 ⟨item _ _ _ first, item.greedy _ _ _ others⟩)

theorem gives_blockRule : Reading.Gives Term.Printable (BlockRule term) := by
  have track : Reading.Gives (fun p => ∀ t ∈ p, t.Printable) (TrackRule term) :=
    fun _ rest p ⟨there, _, read⟩ => gives_programRule h there rest p read
  rintro here rest _ ⟨a, b, first, others, _, opened, more, rfl⟩
  refine printable_headed (by decide) ?_
  have tracks : ∀ p ∈ first :: others, ∀ t ∈ p, t.Printable :=
    List.forall_mem_cons.2 ⟨gives_programRule h _ _ _ opened, track.greedy _ _ _ more⟩
  simpa only [List.forall_mem_map] using fun p hp => .list (tracks p hp)

theorem gives_termRule [Numeral.Bounded ν] : Reading.Gives Term.Printable (TermRule term) := by
  intro here rest t hr
  cases hr with
  | number hr => exact gives_numberRule _ _ _ hr
  | symbol hr => exact gives_symbolRule _ _ _ hr
  | list hr => exact gives_listRule h _ _ _ hr
  | each hr => exact gives_bracketRule h (.inl rfl) _ _ _ hr
  | random hr => exact gives_bracketRule h (.inr rfl) _ _ _ hr
  | block hr => exact gives_blockRule h _ _ _ hr

end Rules

variable [Numeral ν] [Numeral.Bounded ν]

theorem printable_of_derives {here rest : List Char} {t : Term ν} (h : Derives here rest t) :
    t.Printable := by
  rw [Derives] at h
  refine gives_termRule ?_ _ _ _ h
  rintro start _ _ ⟨shorter, inner⟩
  exact printable_of_derives inner
termination_by here.length

theorem gives_derives : Reading.Gives Term.Printable (Derives (ν := ν)) :=
  fun _ _ _ => printable_of_derives

end Grammar

variable [Numeral ν]

theorem Program.forall_printable_iff_leaves (p : Program ν) : (∀ t ∈ p, t.Printable) ↔
    (∀ name ∈ p.symbols, Token.isSymbol name = true) ∧
      ∀ x ∈ p.numbers, Numeral.isFinite x = true := by
  rw [forall_printable_iff, symbols, numbers, Sum.forall]
  simp [leafFlaw?, and_comm]

theorem Term.reads_back [Numeral.Faithful ν] (o : PrintStyle) {t : Term ν} (ht : t.Printable) :
    Term.parse (String.ofList (t.print o)) = .ok t := by
  have legible := (Grammar.legible_termText o ht 0).1
  refine Parsing.Parser.parse_eq_ok ?_
  rw [String.toList_ofList]
  exact Grammar.reads_wholeTerm legible

variable [Numeral.Bounded ν]

theorem Program.printable_of_parse {text : String} {p : Program ν}
    (h : Program.parse text = .ok p) : ∀ t ∈ p, t.Printable := by
  have derived := (Parsing.Parser.parse_eq_ok_iff (Grammar.settles_wholeProgram _) ?_).1 h
  · obtain ⟨_, derived, _⟩ := derived
    exact Grammar.gives_programRule Grammar.gives_derives _ _ _ derived
  · rintro _ _ ⟨_, rfl⟩
    exact Grammar.not_stuck_nil

theorem Term.printable_of_parse {text : String} {t : Term ν} (h : Term.parse text = .ok t) :
    t.Printable := by
  have derived := (Parsing.Parser.parse_eq_ok_iff (Grammar.settles_wholeTerm _) ?_).1 h
  · obtain ⟨_, derived, _⟩ := derived
    exact Grammar.gives_padded (Grammar.gives_led Grammar.gives_derives) _ _ _ derived
  · rintro _ _ ⟨_, rfl⟩
    exact Grammar.not_stuck_nil

/-- Whatever is accepted, as a program or as a term, can be printed: all its symbols are
symbols of the language and all its numbers are finite. So it is read back from every style it
is printed in, as long as a number is read back as what was written, and from its stored
form. -/
theorem parsed_printable :
    (∀ (text : String) (p : Program ν), Program.parse text = .ok p →
      (∀ name ∈ p.symbols, Token.isSymbol name = true) ∧
      (∀ x ∈ p.numbers, Numeral.isFinite x = true) ∧
      (∀ [Numeral.Faithful ν] (o : PrintStyle),
        Program.parse (String.ofList (Program.print o p)) = .ok p) ∧
      Program.load p.dump = .ok p) ∧
    ∀ (text : String) (t : Term ν), Term.parse text = .ok t →
      (∀ name ∈ Program.symbols [t], Token.isSymbol name = true) ∧
      (∀ x ∈ Program.numbers [t], Numeral.isFinite x = true) ∧
      (∀ [Numeral.Faithful ν] (o : PrintStyle),
        Term.parse (String.ofList (t.print o)) = .ok t) ∧
      Program.load (Program.dump [t]) = .ok [t] := by
  constructor
  · intro text p h
    have printable := Program.printable_of_parse h
    obtain ⟨symbols, numbers⟩ := (Program.forall_printable_iff_leaves p).1 printable
    exact ⟨symbols, numbers, fun o => Program.reads_back o printable,
      Program.load_dump_of_printable printable⟩
  · intro text t h
    have printable := Term.printable_of_parse h
    have alone : ∀ s ∈ [t], s.Printable := by simpa using printable
    obtain ⟨symbols, numbers⟩ := (Program.forall_printable_iff_leaves [t]).1 alone
    exact ⟨symbols, numbers, fun o => Term.reads_back o printable,
      Program.load_dump_of_printable alone⟩

/-- All the rules that put symbols of their own into a term, on a text that is not how it is
printed. -/
theorem parsed_printable_brackets :
    let text := "\x7bspeed* [1 ..<>]; /*|*/ | <a []>\x7d"
    ∃ p : Program Int, Program.parse text = .ok p ∧
      Program.print .compact p = "\x7b speed* [1..<>] | <a []> \x7d".toList ∧
      p.symbols = ["block", "speed*", "each-range", "random-angle", "random-choice", "a",
        "each-angle"] ∧ (∀ name ∈ p.symbols, Token.isSymbol name = true) ∧
      Program.parse (String.ofList (Program.print .standard p)) = .ok p ∧
      Program.load p.dump = .ok p ∧
      ∃ t : Term Int, Term.parse text = .ok t ∧
        Term.parse (String.ofList (t.print .compact)) = .ok t := by
  intro text
  have asProgram : ((Program.parse text : Except Parsing.Failure (Program Int)).toOption.map
      fun p => (Program.print .compact p, p.symbols)) =
        some ("\x7b speed* [1..<>] | <a []> \x7d".toList, ["block", "speed*", "each-range",
          "random-angle", "random-choice", "a", "each-angle"]) := by decide +kernel
  have asTerm : (Term.parse text : Except Parsing.Failure (Term Int)).toOption.isSome = true := by
    decide +kernel
  cases found : (Program.parse text : Except Parsing.Failure (Program Int)) with
  | error failure => simp [found, Except.toOption] at asProgram
  | ok p =>
    cases single : (Term.parse text : Except Parsing.Failure (Term Int)) with
    | error failure => simp [single, Except.toOption] at asTerm
    | ok t =>
      obtain ⟨printed, named⟩ : Program.print .compact p = _ ∧ p.symbols = _ := by
        simpa [found, Except.toOption] using asProgram
      obtain ⟨symbols, _, reads, stored⟩ := parsed_printable.1 text p found
      exact ⟨p, rfl, printed, named, symbols, reads .standard, stored, t, rfl,
        (parsed_printable.2 text t single).2.2.1 .compact⟩

end ParticlePatterns
