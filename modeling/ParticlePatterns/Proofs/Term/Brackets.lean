import ParticlePatterns.Proofs.Term.Legibility

/-!
# Lists and bracket forms

A list, a choice and a range are legible as soon as the terms inside are.
-/

set_option autoImplicit false

namespace ParticlePatterns.Grammar

open Parsing.Parser
open Token (Ends)

variable {ν : Type} [Numeral ν]

theorem filler_before_term (c : Char) (text : List Char) (hc : startsTerm c = true) :
    filler.Reads [' '] (c :: text) " " :=
  reads_filler (by simp) (by simpa using startsFiller_of_startsTerm hc)

theorem filler_before_joined {write : Term ν → List Char} {last rest : List Char}
    {ts : List (Term ν)} (h : ∀ t ∈ ts, Legible (write t) t)
    (hr : ∀ c ∈ rest.head?, startsFiller c = false) :
    filler.Reads [] (joined write [' '] last ts ++ rest) "" := by
  refine reads_filler (by simp) fun c hc => ?_
  rcases joined_head h c hc with hs | hs
  · exact startsFiller_of_startsTerm hs
  · exact hr c hs

def Closes (c : Char) : Prop :=
  startsTerm c = false ∧ startsFiller c = false ∧ Token.isSymbolPart c = false ∧ c ≠ '.'

theorem Closes.ends {c : Char} (h : Closes c) (rest : List Char) : Ends (c :: rest) :=
  Token.ends_cons rest h.2.2.1 h.2.2.2

theorem Closes.items {write : Term ν → List Char} {ts : List (Term ν)} {close : Char}
    {levels : Nat} (hc : Closes close) (h : ∀ t ∈ ts, Legible (write t) t) (rest : List Char)
    (hl : (joined write [' '] [] ts ++ close :: rest).length < levels) :
    Items ((unroll termOf levels).skip filler) (close :: rest) (joined write [' '] [] ts) ts := by
  exact items_joined (readsTerms_unroll (by omega)) filler_before_term
    (reads_filler (by simp) (by simpa using hc.2.1)) (hc.ends rest) (by simpa using hc.1) ts h hl

theorem legible_list {write : Term ν → List Char} {ts : List (Term ν)}
    (h : ∀ t ∈ ts, Legible (write t) t) :
    Legible ('(' :: (joined write [' '] [] ts ++ [')'])) (.list ts) := by
  have hc : Closes ')' := ⟨by decide, by decide, by decide, by decide⟩
  refine legible_of_termOf (by decide) fun rest levels _ hl => ?_
  have read : (listOf (unroll termOf levels)).Reads
      ('(' :: (joined write [' '] [] ts ++ [')'])) rest (.list ts) := by
    have items := hc.items h rest (by simpa using hl)
    have opened : ((string "(").andThen filler).Reads ['(']
        (joined write [' '] [] ts ++ ')' :: rest) "" :=
      Reads.andThen (reads_string "(" _) (filler_before_joined h (by simpa using hc.2.1))
    have inside := Reads.andThen opened items.many
    have closed := Reads.skip inside (reads_string ")" rest)
    exact closed.map Term.list
  refine (reads_tryEach_tail (number_stops ?_) (reads_tryEach_tail (symbol_stops ?_)
    (reads_tryEach_head read)) none).label _
  · simp
  · simp
    decide

structure Brackets (shape : Bracket) (left right : Char) : Prop where
  left_eq : shape.left.toList = [left]
  right_eq : shape.right.toList = [right]
  closes : Closes right

theorem Brackets.opened {shape : Bracket} {left right : Char} (hb : Brackets shape left right)
    {text : List Char} {t : Term ν} (ht : Legible text t) (rest : List Char) :
    ((string shape.left).andThen filler).Reads [left] (text ++ rest) "" := by
  have opened := reads_string shape.left ([] ++ (text ++ rest))
  have blank : filler.Reads [] (text ++ rest) "" :=
    reads_filler (by simp) fun c hc => startsFiller_of_startsTerm (ht.head rest c hc)
  rw [hb.left_eq] at opened
  exact Reads.andThen opened blank

theorem Brackets.closed {shape : Bracket} {left right : Char} (hb : Brackets shape left right)
    (rest : List Char) : (string shape.right).Reads [right] rest shape.right := by
  have closed := reads_string shape.right rest
  rwa [hb.right_eq] at closed

/-- A pair of brackets that holds a first term, and then what `more` reads. -/
theorem Brackets.filled {shape : Bracket} {left right : Char} (hb : Brackets shape left right)
    {inner : Parsing.Parser (Term ν)} {text gap more rest : List Char} {first t : Term ν}
    (ht : Legible text first) (hf : (inner.skip filler).Reads (text ++ gap) (more ++ rest) first)
    (hm : (choice [rangeOf inner shape first, choiceOf inner shape first]).Reads more rest t) :
    (bracketOf inner shape).Reads (left :: ((text ++ gap) ++ more)) rest t := by
  have not_empty : ((string shape.right).map fun _ => (.symbol shape.angle : Term ν)).Stops
      ((text ++ gap) ++ more ++ rest) := by
    refine (char_stops hb.right_eq fun c hc => ?_).bind _
    rintro rfl
    have := ht.head (gap ++ more ++ rest) c (by simpa using hc)
    exact absurd this (by simp [hb.closes.1])
  have filled : ((inner.skip filler).bind fun first =>
      choice [rangeOf inner shape first, choiceOf inner shape first]).Reads
      ((text ++ gap) ++ more) rest t := Reads.bind hf hm
  have opened : ((string shape.left).andThen filler).Reads [left]
      (((text ++ gap) ++ more) ++ rest) "" := by
    have opened := hb.opened ht (gap ++ more ++ rest)
    simpa using opened
  exact Reads.andThen opened (reads_tryEach_tail not_empty (reads_tryEach_head filled) none)

omit [Numeral ν] in
theorem range_stops {inner : Parsing.Parser (Term ν)} {shape : Bracket} {first : Term ν}
    {rest : List Char} (h : ∀ c ∈ rest.head?, c ≠ '.') :
    (rangeOf inner shape first).Stops rest := by
  have dots : (string "..").Stops rest := by
    refine string_stops ?_
    cases rest with
    | nil => rfl
    | cons c rest =>
      have := h c rfl
      rw [show "..".toList = ['.', '.'] from rfl]
      simp [List.isPrefixOf, this.symm]
  exact ((((dots.bind _).bind _).bind _).bind _).bind _

theorem Brackets.reads_choice {shape : Bracket} {left right : Char}
    (hb : Brackets shape left right) {write : Term ν → List Char} {first : Term ν}
    {others : List (Term ν)} (h : ∀ t ∈ first :: others, Legible (write t) t)
    (rest : List Char) {levels : Nat}
    (hl : (joined write [' '] [] (first :: others) ++ right :: rest).length < levels) :
    (bracketOf (unroll termOf levels) shape).Reads
      (left :: (joined write [' '] [] (first :: others) ++ [right])) rest
      (.list (.symbol shape.choice :: first :: others)) := by
  have no_filler : filler.Reads [] (right :: rest) "" :=
    reads_filler (by simp) (by simpa using hb.closes.2.1)
  have later : ∀ t ∈ others, Legible (write t) t := fun t ht => h t (by simp [ht])
  obtain ⟨gap, split, read⟩ := reads_first_joined (readsTerms_unroll (by omega))
    filler_before_term no_filler (hb.closes.ends rest) first others h hl
  have room : (joined write [' '] [] others ++ right :: rest).length < levels := by
    rw [split] at hl
    simp at hl ⊢
    omega
  have items := hb.closes.items later rest room
  have more := (Reads.skip items.many (hb.closed rest)).map
    fun ts => (.list (.symbol shape.choice :: first :: ts) : Term ν)
  have no_range : (rangeOf (unroll termOf levels) shape first).Stops
      (joined write [' '] [] others ++ [right] ++ rest) := by
    refine range_stops fun c hc => ?_
    rw [List.append_assoc] at hc
    rcases joined_head later c hc with hs | hs
    · rintro rfl
      exact absurd hs (by decide)
    · cases hs
      exact hb.closes.2.2.2
  rw [split, List.append_assoc]
  exact hb.filled (h first (by simp)) (by simpa using read)
    (reads_tryEach_tail no_range (reads_tryEach_head more) none)

theorem Brackets.reads_range {shape : Bracket} {left right : Char}
    (hb : Brackets shape left right) {a b : List Char} {low high : Term ν} (ha : Legible a low)
    (hh : Legible b high) (rest : List Char) {levels : Nat}
    (hl : (a ++ '.' :: '.' :: (b ++ right :: rest)).length < levels) :
    (bracketOf (unroll termOf levels) shape).Reads
      (left :: (a ++ '.' :: '.' :: (b ++ [right]))) rest
      (.list [.symbol shape.range, low, high]) := by
  have first : ((unroll termOf levels).skip filler).Reads (a ++ [])
      (('.' :: '.' :: (b ++ [right])) ++ rest) low :=
    Reads.skip (ha.reads _ levels (Token.ends_range _) (by simpa using hl))
      (reads_filler (by simp) (by simp; decide))
  have dots : ((string "..").andThen filler).Reads ['.', '.'] (b ++ ([right] ++ rest)) "" :=
    Reads.andThen (reads_string ".." _)
      (reads_filler (by simp) fun c hc => startsFiller_of_startsTerm (hh.head _ c hc))
  have second := Reads.andThen dots
    (hh.reads (right :: rest) levels (hb.closes.ends rest) (by simp at hl ⊢; omega))
  have blank : filler.Reads [] ([right] ++ rest) "" :=
    reads_filler (by simp) (by simpa using hb.closes.2.1)
  have more : (rangeOf (unroll termOf levels) shape low).Reads (['.', '.'] ++ b ++ [] ++ [right])
      rest (.list [.symbol shape.range, low, high]) :=
    (Reads.skip (Reads.skip second blank) (hb.closed rest)).map _
  rw [List.append_nil, List.append_assoc] at more
  have whole := hb.filled ha first (reads_tryEach_head more none)
  rwa [List.append_nil] at whole

omit [Numeral ν] in
theorem Brackets.reads_angle {shape : Bracket} {left right : Char}
    (hb : Brackets shape left right) (inner : Parsing.Parser (Term ν)) (rest : List Char) :
    (bracketOf inner shape).Reads [left, right] rest (.symbol shape.angle) := by
  have opened := reads_string shape.left ([] ++ ([right] ++ rest))
  have blank : filler.Reads [] ([right] ++ rest) "" :=
    reads_filler (by simp) (by simpa using hb.closes.2.1)
  have empty := (hb.closed rest).map fun _ => (.symbol shape.angle : Term ν)
  rw [hb.left_eq] at opened
  exact Reads.andThen (Reads.andThen opened blank) (reads_tryEach_head empty none)

theorem brackets_each : Brackets .each '[' ']' :=
  ⟨rfl, rfl, by decide, by decide, by decide, by decide⟩

theorem brackets_random : Brackets .random '<' '>' :=
  ⟨rfl, rfl, by decide, by decide, by decide, by decide⟩

theorem legible_each {tail : List Char} {t : Term ν}
    (h : ∀ rest levels, (tail ++ rest).length < levels →
      (bracketOf (unroll termOf levels) .each).Reads ('[' :: tail) rest t) :
    Legible ('[' :: tail) t := by
  refine legible_of_termOf (by decide) fun rest levels _ hl => ?_
  refine (reads_tryEach_tail (number_stops ?_) (reads_tryEach_tail (symbol_stops ?_)
    (reads_tryEach_tail (listOf_stops _ ?_) (reads_tryEach_head (h rest levels hl)))) none).label _
  · simp
  · simp
    decide
  · simp

theorem legible_random {tail : List Char} {t : Term ν}
    (h : ∀ rest levels, (tail ++ rest).length < levels →
      (bracketOf (unroll termOf levels) .random).Reads ('<' :: tail) rest t) :
    Legible ('<' :: tail) t := by
  refine legible_of_termOf (by decide) fun rest levels _ hl => ?_
  refine (reads_tryEach_tail (number_stops ?_) (reads_tryEach_tail (symbol_stops ?_)
    (reads_tryEach_tail (listOf_stops _ ?_) (reads_tryEach_tail (bracketOf_stops _ rfl ?_)
    (reads_tryEach_head (h rest levels hl))))) none).label _ <;> simp <;> decide

/-! The bracket forms of both shapes, as they are printed. -/

variable {shape : Bracket}

theorem legible_angle (hs : shape = .each ∨ shape = .random) :
    Legible (shape.left ++ shape.right).toList (.symbol shape.angle : Term ν) := by
  rcases hs with rfl | rfl
  · exact legible_each fun rest levels _ => brackets_each.reads_angle _ rest
  · exact legible_random fun rest levels _ => brackets_random.reads_angle _ rest

theorem legible_choice (hs : shape = .each ∨ shape = .random) {write : Term ν → List Char}
    {args : List (Term ν)} (hne : args ≠ []) (h : ∀ t ∈ args, Legible (write t) t) :
    Legible (shape.left.toList ++ [' '].intercalate (args.map write) ++ shape.right.toList)
      (.list (.symbol shape.choice :: args)) := by
  obtain ⟨first, others, rfl⟩ := List.exists_cons_of_ne_nil hne
  rw [← joined_nil_eq_intercalate]
  rcases hs with rfl | rfl
  · change Legible ('[' :: (joined write [' '] [] (first :: others) ++ [']'])) _
    exact legible_each fun rest levels hl => brackets_each.reads_choice h rest (by simpa using hl)
  · change Legible ('<' :: (joined write [' '] [] (first :: others) ++ ['>'])) _
    exact legible_random fun rest levels hl =>
      brackets_random.reads_choice h rest (by simpa using hl)

theorem legible_range (hs : shape = .each ∨ shape = .random) {a b : List Char}
    {low high : Term ν} (ha : Legible a low) (hb : Legible b high) :
    Legible (shape.left.toList ++ (a ++ ['.', '.'] ++ b) ++ shape.right.toList)
      (.list [.symbol shape.range, low, high]) := by
  have split : ∀ right : Char,
      a ++ ['.', '.'] ++ b ++ [right] = a ++ '.' :: '.' :: (b ++ [right]) := by
    simp
  rcases hs with rfl | rfl
  · change Legible ('[' :: (a ++ ['.', '.'] ++ b ++ [']'])) _
    rw [split]
    exact legible_each fun rest levels hl =>
      brackets_each.reads_range ha hb rest (by simpa using hl)
  · change Legible ('<' :: (a ++ ['.', '.'] ++ b ++ ['>'])) _
    rw [split]
    exact legible_random fun rest levels hl =>
      brackets_random.reads_range ha hb rest (by simpa using hl)

end ParticlePatterns.Grammar
