import ParticlePatterns.Proofs.Term.Brackets
import ParticlePatterns.Term.Printer

/-!
# Statements and blocks

A statement is parted from the next one by a semicolon or a new line, and from what
closes its track by blanks. Statements that are legible where they stand make legible
programs, and such programs as tracks make a legible block.
-/

set_option autoImplicit false

namespace ParticlePatterns.Grammar

open Parsing.Parser
open Printer (newline)
open Token (Ends)

variable {ν : Type} [Numeral ν]

def TrackEnd (rest : List Char) : Prop :=
  ∀ c ∈ rest.head?, c = '|' ∨ c = '\x7d'

inductive Parting : List Char → List Char → Prop
  | semicolon {rest : List Char} : (∀ c ∈ rest.head?, startsTerm c = true) →
      Parting [';', ' '] rest
  | line (depth : Nat) {rest : List Char} : (∀ c ∈ rest.head?, startsFiller c = false) →
      Parting (newline depth) rest
  | close {blanks rest : List Char} : blanks = [] ∨ blanks = [' '] → TrackEnd rest →
      Parting blanks rest

theorem TrackEnd.not_startsTerm {rest : List Char} (h : TrackEnd rest) :
    ∀ c ∈ rest.head?, startsTerm c = false := by
  intro c hc
  rcases h c hc with rfl | rfl <;> decide

theorem TrackEnd.not_startsFiller {rest : List Char} (h : TrackEnd rest) :
    ∀ c ∈ rest.head?, startsFiller c = false := by
  intro c hc
  rcases h c hc with rfl | rfl <;> decide

theorem TrackEnd.ends {rest : List Char} (h : TrackEnd rest) : Ends rest := by
  cases rest with
  | nil => exact Token.ends_nil
  | cons c rest =>
    rcases h c rfl with rfl | rfl <;> exact Token.ends_cons _ (by decide) (by decide)

theorem reads_lineFiller_nil {rest : List Char}
    (hr : ∀ c ∈ rest.head?, startsFiller c = false ∨ c = '\n') : lineFiller.Reads [] rest "" := by
  refine reads_lineFiller (by simp) fun c hc => ?_
  rcases hr c hc with h | rfl
  · simp only [startsFiller, Bool.or_eq_false_iff, decide_eq_false_iff_not] at h
    exact ⟨h.1.1.1.1, h.1.1.1.2, h.2⟩
  · decide

def marks : Parsing.Parser (List String) :=
  many ((string ";").skip lineFiller)

theorem marks_none {rest : List Char} (h : ∀ c ∈ rest.head?, c ≠ ';') :
    marks.Reads [] rest [] :=
  Items.many (.none ((char_stops rfl h).bind _))

/-- A statement with what parts it from the rest: `last` on its line, then semicolons,
then filler. -/
theorem reads_statementOf {write : Term ν → List Char} {ts : List (Term ν)} {t : Term ν}
    (ht : ts = [t] ∨ 1 < ts.length ∧ t = .list ts) (h : ∀ t ∈ ts, Legible (write t) t)
    {last after gap rest : List Char} {marked : List String} {lastText gapText : String}
    {inner : Parsing.Parser (Term ν)} {levels : Nat} (hi : ReadsTerms inner levels)
    (hl : (joined write [' '] last ts ++ (after ++ (gap ++ rest))).length < levels)
    (hlast : lineFiller.Reads last (after ++ (gap ++ rest)) lastText)
    (hend : Ends (last ++ (after ++ (gap ++ rest))))
    (hstop : ∀ c ∈ (after ++ (gap ++ rest)).head?, startsTerm c = false)
    (hafter : marks.Reads after (gap ++ rest) marked) (hgap : filler.Reads gap rest gapText) :
    ((statementOf inner).skip filler).Reads
      (joined write [' '] last ts ++ after ++ gap) rest t := by
  have fill : ∀ c text, startsTerm c = true → lineFiller.Reads [' '] (c :: text) " " := by
    intro c text hc
    have clear := startsFiller_of_startsTerm hc
    simp only [startsFiller, Bool.or_eq_false_iff, decide_eq_false_iff_not] at clear
    exact reads_lineFiller (by simp) (by simp [clear])
  have items := items_joined hi fill hlast hend hstop ts h hl
  rcases ht with rfl | ⟨hlen, rfl⟩
  · exact Reads.skip ((Reads.skip items.many1 hafter).map _) hgap
  · obtain ⟨first, second, others, rfl⟩ :
        ∃ first second others, ts = first :: second :: others := by
      cases ts with
      | nil => simp at hlen
      | cons first others =>
        cases others with
        | nil => simp at hlen
        | cons second others => exact ⟨first, second, others, rfl⟩
    exact Reads.skip ((Reads.skip items.many1 hafter).map _) hgap

structure LegibleStatement (text : List Char) (t : Term ν) : Prop where
  starts : ∃ c tail, text = c :: tail ∧ startsTerm c = true
  reads {inner : Parsing.Parser (Term ν)} {levels : Nat} (tail rest : List Char) :
    ReadsTerms inner levels → Parting tail rest → (text ++ tail ++ rest).length < levels →
    ((statementOf inner).skip filler).Reads (text ++ tail) rest t

/-- Terms on one line are a statement: one for itself, or several for their list. -/
theorem legibleStatement_joined {write : Term ν → List Char} {ts : List (Term ν)} {t : Term ν}
    (ht : ts = [t] ∨ 1 < ts.length ∧ t = .list ts) (h : ∀ t ∈ ts, Legible (write t) t) :
    LegibleStatement (joined write [' '] [] ts) t := by
  obtain ⟨first, others, rfl⟩ : ∃ first others, ts = first :: others := by
    cases ts with
    | nil => simp at ht
    | cons first others => exact ⟨first, others, rfl⟩
  have behind : ∀ last, joined write [' '] last (first :: others)
      = joined write [' '] [] (first :: others) ++ last := by
    intro last
    rw [joined_eq_intercalate, joined_eq_intercalate, List.append_nil]
  refine ⟨joined_starts others (h first (by simp)).starts, fun tail rest hi hp hl => ?_⟩
  cases hp with
  | semicolon hr =>
    have clear : ∀ c ∈ rest.head?, startsFiller c = false :=
      fun c hc => startsFiller_of_startsTerm (hr c hc)
    have blank : lineFiller.Reads [' '] rest " " := by
      refine reads_lineFiller (by simp) fun c hc => ?_
      have := clear c hc
      simp only [startsFiller, Bool.or_eq_false_iff, decide_eq_false_iff_not] at this
      exact ⟨this.1.1.1.1, this.1.1.1.2, this.2⟩
    have no_mark : ∀ c ∈ rest.head?, c ≠ ';' := by
      rintro c hc rfl
      exact absurd (hr _ hc) (by decide)
    have mark : marks.Reads ([';', ' '] ++ []) rest [";"] :=
      Items.many (.more (by simp) (Reads.skip (reads_string ";" _) blank)
        (.none ((char_stops rfl no_mark).bind _)))
    have line : lineFiller.Reads [] (([';', ' '] ++ []) ++ ([] ++ rest)) "" :=
      reads_lineFiller_nil (by simp; decide)
    have read := reads_statementOf ht h hi (by simpa [List.append_assoc] using hl) line
      (Token.ends_cons _ (by decide) (by decide)) (by simp; decide) mark
      (reads_filler (by simp) clear)
    simpa using read
  | line depth hr =>
    have line : lineFiller.Reads [] ([] ++ (newline depth ++ rest)) "" :=
      reads_lineFiller_nil (by simp [newline])
    have read := reads_statementOf ht h hi (by simpa [List.append_assoc] using hl) line
      (Token.ends_cons _ (by decide) (by decide)) (by simp [newline]; decide)
      (marks_none (by simp [newline])) (reads_filler (by simp [newline]) hr)
    simpa using read
  | close hb hr =>
    have no_mark : ∀ c ∈ ([] ++ rest).head?, c ≠ ';' := by
      intro c hc
      rcases hr c hc with rfl | rfl <;> decide
    have line : lineFiller.Reads tail ([] ++ ([] ++ rest)) (String.ofList tail) := by
      refine reads_lineFiller (by rcases hb with rfl | rfl <;> simp) fun c hc => ?_
      rcases hr c hc with rfl | rfl <;> decide
    have ends : Ends (tail ++ ([] ++ ([] ++ rest))) := by
      rcases hb with rfl | rfl
      · exact hr.ends
      · exact Token.ends_cons _ (by decide) (by decide)
    have read := reads_statementOf ht h hi (by rw [behind]; simpa using hl) line ends
      hr.not_startsTerm (marks_none no_mark) (reads_filler (by simp) hr.not_startsFiller)
    rw [behind] at read
    simpa using read

section Programs

variable {write : Term ν → List Char} {inner : Parsing.Parser (Term ν)} {levels : Nat}
  {between last rest : List Char}

theorem items_statements (hi : ReadsTerms inner levels)
    (hb : ∀ next : List Char, (∀ c ∈ next.head?, startsTerm c = true) → Parting between next)
    (hp : Parting last rest) (hr : TrackEnd rest)
    (ss : List (Term ν)) (h : ∀ s ∈ ss, LegibleStatement (write s) s)
    (hl : (joined write between last ss ++ rest).length < levels) :
    Items ((statementOf inner).skip filler) rest (joined write between last ss) ss := by
  have stop := hi.stops rest hr.not_startsTerm
  have none_left : Items ((statementOf inner).skip filler) rest [] [] :=
    .none ((((stop.bind _).bind _).bind _).bind _ |>.bind _)
  induction ss with
  | nil => exact none_left
  | cons first others ih =>
    have one := h first (by simp)
    have ne_nil : write first ≠ [] := by
      obtain ⟨c, tail, ht, _⟩ := one.starts
      simp [ht]
    cases others with
    | nil =>
      have item : Items _ rest (write first ++ last ++ []) [first] :=
        .more (by simp [ne_nil]) (one.reads last rest hi hp (by simpa [joined] using hl))
          none_left
      simpa [joined] using item
    | cons second more =>
      have later := ih (fun s hs => h s (by simp [hs])) (by simp [joined] at hl ⊢; omega)
      obtain ⟨c, tail, ht, hc⟩ : ∃ c tail, joined write between last (second :: more) = c :: tail ∧
        startsTerm c = true := joined_starts more (h second (by simp)).starts
      have parted : Parting between (joined write between last (second :: more) ++ rest) := by
        refine hb _ fun d hd => ?_
        rw [ht] at hd
        cases hd
        exact hc
      exact .more (by simp [ne_nil]) (one.reads between _ hi parted
        (by simpa [joined] using hl)) later

theorem reads_programOf (hi : ReadsTerms inner levels)
    (hb : ∀ next : List Char, (∀ c ∈ next.head?, startsTerm c = true) → Parting between next)
    (hp : Parting last rest) (hr : TrackEnd rest)
    {lead : List Char} (hlead : ∀ c ∈ lead, c = ' ' ∨ c = '\n')
    (ss : List (Term ν)) (h : ∀ s ∈ ss, LegibleStatement (write s) s)
    (hl : (joined write between last ss ++ rest).length < levels) :
    (programOf inner).Reads (lead ++ joined write between last ss) rest ss := by
  refine Reads.andThen (reads_filler hlead fun c hc => ?_)
    (items_statements hi hb hp hr ss h hl).many
  cases ss with
  | nil => exact hr.not_startsFiller c hc
  | cons first others =>
    obtain ⟨d, tail, ht, hd⟩ : ∃ d tail, joined write between last (first :: others) = d :: tail ∧
      startsTerm d = true := joined_starts others (h first (by simp)).starts
    rw [ht] at hc
    cases hc
    exact startsFiller_of_startsTerm hd

theorem newline_blank (depth : Nat) : ∀ c ∈ newline depth, c = ' ' ∨ c = '\n' := by
  intro c hc
  rcases List.mem_cons.1 hc with rfl | hc
  · exact .inr rfl
  · exact .inl (List.eq_of_mem_replicate hc)

theorem parting_line (depth : Nat) (next : List Char)
    (h : ∀ c ∈ next.head?, startsTerm c = true) : Parting (newline depth) next :=
  .line depth fun c hc => startsFiller_of_startsTerm (h c hc)

theorem flatMap_eq_intercalate (sep first : List Char) (others : List (List Char)) :
    (first :: others).flatMap (sep ++ ·) = sep ++ sep.intercalate (first :: others) := by
  induction others generalizing first with
  | nil => simp
  | cons second others ih =>
    rw [List.flatMap_cons, ih second, List.intercalate_cons_cons]
    simp

omit [Numeral ν] in
/-- Either style opens a track with blanks and closes it with what may close one. -/
theorem track_eq_joined (o : PrintStyle) (depth : Nat) (write : Term ν → List Char)
    (ss : List (Term ν)) : ∃ lead between last,
      Printer.trackText o depth (ss.map write) ++ Printer.trackBreak o depth
        = lead ++ joined write between last ss ∧
      (∀ c ∈ lead, c = ' ' ∨ c = '\n') ∧
      (∀ next : List Char, (∀ c ∈ next.head?, startsTerm c = true) → Parting between next) ∧
      (∀ rest, TrackEnd rest → Parting last rest) := by
  obtain ⟨indent, sugar⟩ := o
  cases indent with
  | true =>
    cases ss with
    | nil =>
      exact ⟨newline depth, newline depth, [],
        by simp [Printer.trackText, Printer.trackBreak, joined], newline_blank depth,
        parting_line depth, fun _ hr => .close (.inl rfl) hr⟩
    | cons first others =>
      refine ⟨newline (depth + 1), newline (depth + 1), newline depth, ?_, newline_blank _,
        parting_line _, fun _ hr => .line depth hr.not_startsFiller⟩
      rw [joined_eq_intercalate]
      simp only [Printer.trackText, Printer.trackBreak, if_true, List.map_cons]
      rw [flatMap_eq_intercalate, List.append_assoc]
  | false =>
    refine ⟨[' '], [';', ' '], if ss.isEmpty then [] else [' '], ?_, by simp,
      fun _ hn => .semicolon hn, fun _ hr => ?_⟩
    · cases ss with
      | nil => simp [Printer.trackText, Printer.trackBreak, joined]
      | cons first others =>
        rw [joined_eq_intercalate]
        simp [Printer.trackText, Printer.trackBreak, Printer.statementBreak]
    · exact .close (by cases ss <;> simp) hr

def trackChars (o : PrintStyle) (depth : Nat) (write : Term ν → List Char)
    (ss : List (Term ν)) : List Char :=
  Printer.trackText o depth (ss.map write) ++ Printer.trackBreak o depth

def laterTracks (o : PrintStyle) (depth : Nat) (write : Term ν → List Char)
    (tracks : List (List (Term ν))) : List Char :=
  tracks.flatMap fun ss => '|' :: trackChars o depth write ss

omit [Numeral ν] in
theorem blockText_eq (o : PrintStyle) (depth : Nat) (write : Term ν → List Char)
    (first : List (Term ν)) (others : List (List (Term ν))) :
    Printer.blockText o depth ((first :: others).map (·.map write))
      = '\x7b' ::
        (trackChars o depth write first ++ laterTracks o depth write others ++ ['\x7d']) := by
  have inside : (Printer.trackBreak o depth ++ ['|']).intercalate
        (((first :: others).map (·.map write)).map (Printer.trackText o depth))
      ++ Printer.trackBreak o depth
      = trackChars o depth write first ++ laterTracks o depth write others := by
    induction others generalizing first with
    | nil => simp [trackChars, laterTracks]
    | cons second others ih =>
      simp only [List.map_cons, List.intercalate_cons_cons, List.append_assoc] at ih ⊢
      rw [ih second]
      simp [trackChars, laterTracks]
  rw [Printer.blockText, List.cons_append, List.cons_append, inside]

omit [Numeral ν] in
theorem laterTracks_end (o : PrintStyle) (depth : Nat) (write : Term ν → List Char)
    (tracks : List (List (Term ν))) (rest : List Char) :
    TrackEnd (laterTracks o depth write tracks ++ '\x7d' :: rest) := by
  cases tracks <;> simp [TrackEnd, laterTracks]

def track (levels : Nat) : Parsing.Parser (Term ν) :=
  (programOf (unroll termOf levels)).map .list

theorem reads_track (o : PrintStyle) (depth : Nat) (hr : TrackEnd rest) (ss : List (Term ν))
    (h : ∀ s ∈ ss, LegibleStatement (write s) s)
    (hl : (trackChars o depth write ss ++ rest).length < levels) :
    (track levels).Reads (trackChars o depth write ss) rest (.list ss) := by
  obtain ⟨lead, between, last, text, hlead, hb, hp⟩ := track_eq_joined o depth write ss
  rw [trackChars, text] at hl ⊢
  exact (reads_programOf (readsTerms_unroll (by omega)) hb (hp rest hr) hr hlead ss h
    (by simp at hl ⊢; omega)).map Term.list

theorem items_tracks (o : PrintStyle) (depth : Nat) (tracks : List (List (Term ν)))
    (h : ∀ ss ∈ tracks, ∀ s ∈ ss, LegibleStatement (write s) s)
    (hl : (laterTracks o depth write tracks ++ '\x7d' :: rest).length < levels) :
    Items ((string "|").andThen (track levels)) ('\x7d' :: rest)
      (laterTracks o depth write tracks) (tracks.map .list) := by
  have bar : "|".toList = ['|'] := rfl
  induction tracks with
  | nil => exact .none ((char_stops bar (by simp)).bind _)
  | cons ss tracks ih =>
    have split : laterTracks o depth write (ss :: tracks)
        = ['|'] ++ trackChars o depth write ss ++ laterTracks o depth write tracks := by
      simp [laterTracks]
    rw [split] at hl ⊢
    have items := ih (fun ss hs => h ss (by simp [hs])) (by simp at hl ⊢; omega)
    have read : (track levels).Reads (trackChars o depth write ss) _ (.list ss) :=
      reads_track o depth (laterTracks_end o depth write tracks rest) ss (h ss (by simp))
        (by simp at hl ⊢; omega)
    exact .more (by simp) (Reads.andThen (reads_string "|" _) read) items

theorem legible_block (o : PrintStyle) (depth : Nat) {tracks : List (List (Term ν))}
    (hne : tracks ≠ []) (h : ∀ ss ∈ tracks, ∀ s ∈ ss, LegibleStatement (write s) s) :
    Legible (Printer.blockText o depth (tracks.map (·.map write)))
      (.list (.symbol Term.blockHead :: tracks.map .list)) := by
  obtain ⟨first, others, rfl⟩ := List.exists_cons_of_ne_nil hne
  rw [blockText_eq]
  refine legible_of_termOf (by decide) fun rest levels _ hl => ?_
  have items : Items ((string "|").andThen (track levels)) ('\x7d' :: rest) _ _ :=
    items_tracks o depth others (fun ss hs => h ss (by simp [hs])) (by simp at hl ⊢; omega)
  have head : (track levels).Reads (trackChars o depth write first) _ (.list first) :=
    reads_track o depth (laterTracks_end o depth write others rest) first (h first (by simp))
      (by simp at hl ⊢; omega)
  have opened := Reads.andThen (reads_string "\x7b" _) head
  have tracks : (((string "\x7b").andThen (track levels)).bind fun first =>
      (many ((string "|").andThen (track levels))).map fun rest =>
        Term.list (.symbol Term.blockHead :: first :: rest)).Reads
      ('\x7b' :: trackChars o depth write first ++ laterTracks o depth write others)
      ('\x7d' :: rest) (Term.list (.symbol Term.blockHead :: (first :: others).map .list)) :=
    Reads.bind opened (items.many.map _)
  have read : (blockOf (unroll termOf levels)).Reads
      ('\x7b' :: trackChars o depth write first ++ laterTracks o depth write others ++ ['\x7d'])
      rest (.list (.symbol Term.blockHead :: (first :: others).map .list)) :=
    Reads.skip tracks (reads_string "\x7d" rest)
  refine (reads_tryEach_tail (number_stops ?_) (reads_tryEach_tail (symbol_stops ?_)
    (reads_tryEach_tail (listOf_stops _ ?_) (reads_tryEach_tail (bracketOf_stops _ rfl ?_)
    (reads_tryEach_tail (bracketOf_stops _ rfl ?_) (reads_tryEach_head read))))) none).label _
    <;> simp <;> decide

end Programs

end ParticlePatterns.Grammar
