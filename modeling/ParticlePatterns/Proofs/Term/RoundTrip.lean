import ParticlePatterns.Proofs.Term.Statements

/-!
# Printed terms are read back

Every style prints legible terms: the bracket form of a list is one of the forms that
`formOf` finds, and all others are written out. What is printed is therefore read back,
as a term or as a program.
-/

set_option autoImplicit false

namespace ParticlePatterns

open Grammar (Legible LegibleStatement joined)
open Parsing.Parser (Reads reads_eof parse_eq_ok)
open Printer (Form)

variable {ν : Type}

inductive Term.Printable [Numeral ν] : Term ν → Prop
  | number {x : ν} : Numeral.isFinite x = true → Printable (.number x)
  | symbol {name : String} : Token.isSymbol name = true → Printable (.symbol name)
  | list {elements : List (Term ν)} : (∀ t ∈ elements, Printable t) → Printable (.list elements)

namespace Printer

theorem formOf_eq_choice {elements : List (Term ν)} {shape : Bracket}
    (h : formOf elements = .choice shape) : (shape = .each ∨ shape = .random) ∧
      ∃ args, elements = .symbol shape.choice :: args ∧ args ≠ [] := by
  unfold formOf formFor at h
  grind

theorem formOf_eq_range {elements : List (Term ν)} {shape : Bracket}
    (h : formOf elements = .range shape) : (shape = .each ∨ shape = .random) ∧
      ∃ low high, elements = [.symbol shape.range, low, high] := by
  have found : (shape = .each ∨ shape = .random) ∧
      ∃ args, elements = .symbol shape.range :: args ∧ args.length = 2 := by
    unfold formOf formFor at h
    grind
  obtain ⟨hs, args, rfl, hl⟩ := found
  match args, hl with
  | [low, high], _ => exact ⟨hs, low, high, rfl⟩

theorem eq_map_list {args : List (Term ν)} (h : ∀ t ∈ args, t.isList = true) :
    args = (args.map fun t => t.elements?.getD []).map .list := by
  induction args with
  | nil => rfl
  | cons t args ih =>
    have first := h t (by simp)
    rw [List.map_cons, List.map_cons, ← ih fun s hs => h s (by simp [hs])]
    cases t with
    | list elements => rfl
    | number _ => cases first
    | symbol _ => cases first

theorem formOf_eq_block {elements : List (Term ν)} (h : formOf elements = .block) :
    ∃ tracks : List (List (Term ν)), tracks ≠ [] ∧
      elements = .symbol Term.blockHead :: tracks.map .list := by
  have found : ∃ args, elements = .symbol Term.blockHead :: args ∧ args ≠ [] ∧
      args.all Term.isList = true := by
    unfold formOf formFor at h
    grind
  obtain ⟨args, rfl, hne, hl⟩ := found
  exact ⟨args.map fun t => t.elements?.getD [], by simpa using hne,
    congrArg _ (eq_map_list (List.all_eq_true.1 hl))⟩

variable [Numeral ν]

inductive ListText (o : PrintStyle) (asStatement : Bool) (depth : Nat) :
    List (Term ν) → List Char → Prop
  | choice {shape : Bracket} {args : List (Term ν)} : shape = .each ∨ shape = .random →
      args ≠ [] → ListText o asStatement depth (.symbol shape.choice :: args)
        (shape.left.toList ++ [' '].intercalate (args.map (termText o false depth))
          ++ shape.right.toList)
  | range {shape : Bracket} {low high : Term ν} : shape = .each ∨ shape = .random →
      ListText o asStatement depth [.symbol shape.range, low, high]
        (shape.left.toList ++ (termText o false depth low ++ ['.', '.']
          ++ termText o false depth high) ++ shape.right.toList)
  | block {tracks : List (List (Term ν))} : tracks ≠ [] →
      ListText o asStatement depth (.symbol Term.blockHead :: tracks.map .list)
        (blockText o depth (tracks.map (·.map (termText o true (depth + 1)))))
  | bare {elements : List (Term ν)} : asStatement = true → 1 < elements.length →
      ListText o asStatement depth elements
        ([' '].intercalate (elements.map (termText o false depth)))
  | wrapped {elements : List (Term ν)} : ListText o asStatement depth elements
      ('(' :: [' '].intercalate (elements.map (termText o false depth)) ++ [')'])

theorem listText (o : PrintStyle) (asStatement : Bool) (depth : Nat)
    (elements : List (Term ν)) :
    ListText o asStatement depth elements (termText o asStatement depth (.list elements)) := by
  have plain : ListText o asStatement depth elements
      (if standsBare o asStatement elements then
          [' '].intercalate (elements.map (termText o false depth))
        else '(' :: [' '].intercalate (elements.map (termText o false depth)) ++ [')']) := by
    split
    · rename_i hb
      simp only [standsBare, Bool.and_eq_true, decide_eq_true_eq] at hb
      exact .bare hb.1.1 hb.2
    · exact .wrapped
  have found : ∀ form, form ≠ .plain → (if o.sugar then formOf elements else .plain) = form →
      formOf elements = form := by
    intro form hne hf
    split at hf
    · exact hf
    · exact absurd hf.symm hne
  cases hf : (if o.sugar then formOf elements else .plain) with
  | plain =>
    rw [termText.eq_def]
    simp only [hf, termTexts_eq_map]
    cases elements <;> exact plain
  | choice shape =>
    obtain ⟨hs, args, rfl, hne⟩ := formOf_eq_choice (found _ (by simp) hf)
    rw [termText.eq_def]
    simp only [hf, termTexts_eq_map]
    exact .choice hs hne
  | range shape =>
    obtain ⟨hs, low, high, rfl⟩ := formOf_eq_range (found _ (by simp) hf)
    rw [termText.eq_def]
    simp only [hf, termTexts_eq_map, List.map_cons, List.map_nil, List.intercalate_cons_cons,
      List.intercalate_singleton]
    exact .range hs
  | block =>
    obtain ⟨tracks, hne, rfl⟩ := formOf_eq_block (found _ (by simp) hf)
    rw [termText.eq_def]
    simp only [hf, trackTexts_eq_map, List.map_map, Function.comp_def, Term.elements?,
      Option.getD_some]
    exact .block hne

end Printer

namespace Grammar

open Printer (ListText listText termText)

variable [Numeral ν]

theorem Legible.statement {text : List Char} {t : Term ν} (h : Legible text t) :
    LegibleStatement text t := by
  have one : LegibleStatement (joined (fun _ => text) [' '] [] [t]) t :=
    legibleStatement_joined (.inl rfl) (by simpa using h)
  simpa [joined] using one

/-- A list is legible once its elements are, and the statements of the tracks among them. -/
theorem legible_listText {o : PrintStyle} {asStatement : Bool} {depth : Nat}
    {elements : List (Term ν)} {text : List Char} (ht : ListText o asStatement depth elements text)
    (h : ∀ d, ∀ t ∈ elements, Legible (termText o false d t) t)
    (hs : ∀ d, ∀ ss, Term.list ss ∈ elements → ∀ s ∈ ss, LegibleStatement (termText o true d s) s) :
    (asStatement = false ∧ Legible text (.list elements)) ∨
      (asStatement = true ∧ LegibleStatement text (.list elements)) := by
  have both : Legible text (.list elements) →
      (asStatement = false ∧ Legible text (.list elements)) ∨
      (asStatement = true ∧ LegibleStatement text (.list elements)) := by
    intro legible
    cases asStatement with
    | false => exact .inl ⟨rfl, legible⟩
    | true => exact .inr ⟨rfl, legible.statement⟩
  cases ht with
  | choice shape hne => exact both (legible_choice shape hne fun t ht => h depth t (by simp [ht]))
  | range shape => exact both (legible_range shape (h depth _ (by simp)) (h depth _ (by simp)))
  | block hne =>
    refine both (legible_block o depth hne fun ss hss s hsm => ?_)
    exact hs (depth + 1) ss (by simp [hss]) s hsm
  | bare hb hl =>
    rw [← joined_nil_eq_intercalate]
    exact .inr ⟨hb, legibleStatement_joined (.inr ⟨hl, rfl⟩) (h depth)⟩
  | wrapped =>
    have wrapped := legible_list (h depth)
    rw [joined_nil_eq_intercalate] at wrapped
    exact both wrapped

theorem legible_termText [Numeral.Faithful ν] (o : PrintStyle) {t : Term ν} (h : t.Printable) :
    ∀ depth, Legible (termText o false depth t) t ∧
      LegibleStatement (termText o true depth t) t := by
  suffices both : ∀ depth, (Legible (termText o false depth t) t ∧
      LegibleStatement (termText o true depth t) t) ∧
      ∀ ss, t = .list ss → ∀ s ∈ ss, LegibleStatement (termText o true depth s) s from
    fun depth => (both depth).1
  induction h with
  | number hx =>
    intro depth
    rw [termText, termText]
    exact ⟨⟨legible_number hx, (legible_number hx).statement⟩, by simp⟩
  | @symbol name hn =>
    intro depth
    have legible : Legible (Printer.symbolText o name) (.symbol name : Term ν) := by
      unfold Printer.symbolText
      split
      · rename_i hc
        simp only [Bool.and_eq_true, decide_eq_true_eq] at hc
        rw [hc.2]
        exact legible_angle (.inl rfl)
      · split
        · rename_i hc
          simp only [Bool.and_eq_true, decide_eq_true_eq] at hc
          rw [hc.2]
          exact legible_angle (.inr rfl)
        · exact legible_symbol hn
    rw [termText, termText]
    exact ⟨⟨legible, legible.statement⟩, by simp⟩
  | @list elements _ ih =>
    intro depth
    have terms : ∀ d, ∀ t ∈ elements, Legible (termText o false d t) t :=
      fun d t ht => ((ih t ht) d).1.1
    have tracks : ∀ d, ∀ ss, Term.list ss ∈ elements → ∀ s ∈ ss,
        LegibleStatement (termText o true d s) s :=
      fun d ss hss => ((ih _ hss) d).2 ss rfl
    have inside := legible_listText (listText o false depth elements) terms tracks
    have outside := legible_listText (listText o true depth elements) terms tracks
    refine ⟨⟨by simpa using inside, by simpa using outside⟩, ?_⟩
    intro ss hss s hs
    cases hss
    exact ((ih s hs) depth).1.2

end Grammar

theorem Grammar.reads_wholeTerm [Numeral ν] {text : List Char} {t : Term ν}
    (h : Legible text t) : (Grammar.wholeTerm : Parsing.Parser (Term ν)).Reads text [] t := by
  have inside : (Grammar.term : Parsing.Parser (Term ν)).Reads text [] t :=
    (Grammar.readsTerms_term (text.length + 1)).reads [] h Token.ends_nil (by simp)
  have before : Grammar.filler.Reads [] (text ++ ([] ++ [])) "" :=
    Grammar.reads_filler (by simp) fun c hc =>
      Grammar.startsFiller_of_startsTerm (h.head ([] ++ []) c hc)
  have after : Grammar.filler.Reads [] [] "" := Grammar.reads_filler (by simp) (by simp)
  have whole : (Grammar.wholeTerm : Parsing.Parser (Term ν)).Reads ([] ++ text ++ [] ++ []) [] t :=
    Reads.skip (Reads.skip (Reads.andThen before inside) after) reads_eof
  simpa using whole

theorem Grammar.reads_wholeProgram [Numeral ν] (o : PrintStyle) {write : Term ν → List Char}
    {p : Program ν} (h : ∀ s ∈ p, LegibleStatement (write s) s) :
    (Grammar.wholeProgram : Parsing.Parser (Program ν)).Reads
      ((Printer.statementBreak o 0).intercalate (p.map write)) [] p := by
  have parted : ∀ next : List Char, (∀ c ∈ next.head?, Grammar.startsTerm c = true) →
      Grammar.Parting (Printer.statementBreak o 0) next := by
    intro next hn
    unfold Printer.statementBreak
    split
    · exact Grammar.parting_line 0 next hn
    · exact .semicolon hn
  have last : Grammar.TrackEnd [] := by simp [Grammar.TrackEnd]
  have program : (Grammar.program : Parsing.Parser (Program ν)).Reads
      ([] ++ joined write (Printer.statementBreak o 0) [] p) [] p :=
    Grammar.reads_programOf (Grammar.readsTerms_term _) parted (.close (.inl rfl) last) last
      (by simp) p h (Nat.lt_succ_self _)
  have whole : (Grammar.wholeProgram : Parsing.Parser (Program ν)).Reads
      ([] ++ joined write (Printer.statementBreak o 0) [] p ++ []) [] p :=
    Reads.skip program reads_eof
  rw [Grammar.joined_nil_eq_intercalate] at whole
  simpa using whole

theorem Program.reads_back [Numeral ν] [Numeral.Faithful ν] (o : PrintStyle) {p : Program ν}
    (hp : ∀ t ∈ p, t.Printable) : Program.parse (String.ofList (Program.print o p)) = .ok p := by
  have legible : ∀ s ∈ p, LegibleStatement (Printer.termText o true 0 s) s :=
    fun s hs => (Grammar.legible_termText o (hp s hs) 0).2
  refine parse_eq_ok ?_
  rw [String.toList_ofList, Program.print, Printer.termTexts_eq_map]
  exact Grammar.reads_wholeProgram o legible

/-- Whatever is printed, in whatever style, is read back: a term as that term, and
statements as the program they make. -/
theorem parse_print [Numeral ν] [Numeral.Faithful ν] (o : PrintStyle) :
    (∀ t : Term ν, t.Printable → Term.parse (String.ofList (t.print o)) = .ok t) ∧
    ∀ p : Program ν, (∀ t ∈ p, t.Printable) →
      Program.parse (String.ofList (Program.print o p)) = .ok p := by
  constructor
  · intro t ht
    have legible := (Grammar.legible_termText o ht 0).1
    exact parse_eq_ok (by rw [String.toList_ofList]; exact Grammar.reads_wholeTerm legible)
  · exact fun p hp => Program.reads_back o hp

/-- A range of negative numbers, and a block with an empty track, at both kinds of place. -/
theorem parse_print_block :
    let t : Term Int := .list [.number 60, .list [.symbol "each-range", .number (-1), .number 2],
      .list [.symbol "block", .list [], .list [.list [.symbol "speed*", .number 0]]]]
    t.Printable ∧ t.print .compact = "(60 [-1..2] \x7b | speed* 0 \x7d)".toList ∧
      Term.parse (String.ofList (t.print .compact)) = .ok t ∧
      Program.parse (String.ofList (Program.print .standard [t, t])) = .ok [t, t] := by
  intro t
  have number : ∀ n : Int, (Term.number n).Printable := fun _ => .number rfl
  have symbol : ∀ name, Token.isSymbol name = true → (Term.symbol name : Term Int).Printable :=
    fun _ h => .symbol h
  have cons : ∀ (s : Term Int) ss, s.Printable → (Term.list ss).Printable →
      (Term.list (s :: ss)).Printable := by
    intro s ss hs hss
    cases hss with
    | list h => exact .list (by simpa using ⟨hs, h⟩)
  have nil : (Term.list [] : Term Int).Printable := .list (by simp)
  have range : (Term.list [.symbol "each-range", .number (-1), .number 2] : Term Int).Printable :=
    cons _ _ (symbol _ (by decide)) (cons _ _ (number _) (cons _ _ (number _) nil))
  have track : (Term.list [.list [.symbol "speed*", .number 0]] : Term Int).Printable :=
    cons _ _ (cons _ _ (symbol _ (by decide)) (cons _ _ (number _) nil)) nil
  have block : (Term.list [.symbol "block", .list [], .list [.list [.symbol "speed*", .number 0]]] :
      Term Int).Printable :=
    cons _ _ (symbol _ (by decide)) (cons _ _ nil (cons _ _ track nil))
  have printable : t.Printable :=
    cons _ _ (number _) (cons _ _ range (cons _ _ block nil))
  refine ⟨printable, by decide, (parse_print .compact).1 t printable,
    (parse_print .standard).2 [t, t] ?_⟩
  simpa using printable

end ParticlePatterns
