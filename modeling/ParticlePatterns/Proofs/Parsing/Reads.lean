import ParticlePatterns.Parsing.Combinator

/-!
# What parsers read

`Reads p text rest value` says that `p` takes exactly `text` in front of `rest`,
whatever was read before. `Stops p rest` says that `p` gives up at `rest` without
moving, so that choices and repetitions go on with something else. Both pass
through every combinator.
-/

set_option autoImplicit false

namespace ParticlePatterns.Parsing

theorem Cursor.offset_lt_step (here : Cursor) (h : here.rest ≠ []) :
    here.offset < here.step.offset := by
  obtain ⟨_ | ⟨c, rest⟩, offset, line, column⟩ := here
  · exact absurd rfl h
  · have size := c.utf8Size_pos
    by_cases newline : c = '\n' <;> simp only [step, newline, if_true, if_false] at * <;> omega

theorem Cursor.offset_lt_advance (here : Cursor) {count : Nat} (hc : 0 < count)
    (h : here.rest ≠ []) : here.offset < (here.advance count).offset := by
  cases count with
  | zero => omega
  | succ count =>
    exact Nat.lt_of_lt_of_le (here.offset_lt_step h) (here.step.offset_le_advance count)

theorem Cursor.advance_append (here : Cursor) (first second rest : List Char)
    (h : here.rest = first ++ (second ++ rest)) :
    (here.advance first.length).rest = second ++ rest ∧
      (here.advance first.length).advance second.length
        = here.advance (first ++ second).length := by
  rw [List.length_append, Cursor.advance_add, Cursor.advance_rest, h]
  simp

namespace Parser

variable {T U : Type}

def Reads (p : Parser T) (text rest : List Char) (value : T) : Prop :=
  ∀ here : Cursor, here.rest = text ++ rest → p here = .ok value (here.advance text.length)

def Stops (p : Parser T) (rest : List Char) : Prop :=
  ∀ here : Cursor, here.rest = rest → ∃ failure, p here = .fail failure here

theorem Reads.bind {p : Parser T} {next : T → Parser U} {first second rest : List Char}
    {a : T} {b : U} (hp : p.Reads first (second ++ rest) a)
    (hn : (next a).Reads second rest b) : (p.bind next).Reads (first ++ second) rest b := by
  intro here h
  rw [List.append_assoc] at h
  obtain ⟨hrest, hstop⟩ := here.advance_append first second rest h
  simp only [Parser.bind, hp here h]
  rw [hn _ hrest, hstop]

theorem Reads.map {p : Parser T} {text rest : List Char} {a : T} (f : T → U)
    (hp : p.Reads text rest a) : (p.map f).Reads text rest (f a) := by
  intro here h
  simp only [Parser.map, Parser.bind, hp here h, Parser.pure]

theorem Reads.andThen {p : Parser T} {q : Parser U} {first second rest : List Char} {a : T}
    {b : U} (hp : p.Reads first (second ++ rest) a) (hq : q.Reads second rest b) :
    (p.andThen q).Reads (first ++ second) rest b :=
  Reads.bind hp hq

theorem Reads.skip {p : Parser T} {q : Parser U} {first second rest : List Char} {a : T}
    {b : U} (hp : p.Reads first (second ++ rest) a) (hq : q.Reads second rest b) :
    (p.skip q).Reads (first ++ second) rest a :=
  Reads.bind hp (hq.map fun _ => a)

theorem Reads.label {p : Parser T} {text rest : List Char} {a : T} (hp : p.Reads text rest a)
    (expected : String) : (p.label expected).Reads text rest a := by
  intro here h
  simp only [Parser.label, hp here h]

theorem Stops.bind {p : Parser T} {rest : List Char} (hp : p.Stops rest)
    (next : T → Parser U) : (p.bind next).Stops rest := by
  intro here h
  obtain ⟨failure, hf⟩ := hp here h
  exact ⟨failure, by simp only [Parser.bind, hf]⟩

theorem Stops.label {p : Parser T} {rest : List Char} (hp : p.Stops rest) (expected : String) :
    (p.label expected).Stops rest := by
  intro here h
  obtain ⟨failure, hf⟩ := hp here h
  exact ⟨{ failure with expected }, by simp only [Parser.label, hf, if_true]⟩

theorem reads_string (text : String) (rest : List Char) :
    (string text).Reads text.toList rest text := by
  intro here h
  have found : text.toList.isPrefixOf here.rest = true := by
    rw [h, List.isPrefixOf_iff_prefix]
    exact List.prefix_append _ _
  simp only [string, found, if_true, String.length_toList]

theorem string_stops {text : String} {rest : List Char}
    (h : text.toList.isPrefixOf rest = false) : (string text).Stops rest := by
  intro here hr
  refine ⟨here.expected ("\"" ++ text ++ "\""), ?_⟩
  simp only [string, hr, h, Bool.false_eq_true, if_false]

theorem reads_pattern {token : Recogniser} {text rest : List Char}
    (h : token (text ++ rest) = some text.length) (expected : String) :
    (pattern token expected).Reads text rest (String.ofList text) := by
  intro here hr
  simp only [pattern, hr, h, List.take_left]

theorem pattern_stops {token : Recogniser} {rest : List Char} (h : token rest = none)
    (expected : String) : (pattern token expected).Stops rest := by
  intro here hr
  exact ⟨here.expected expected, by simp only [pattern, hr, h]⟩

theorem reads_eof : eof.Reads [] [] () := by
  intro here h
  simp only [eof, (here.atEnd_iff).2 h, if_true]
  rfl

/-! A choice passes over what stops and takes the first alternative that reads. -/

theorem reads_tryEach_head {p : Parser T} {alternatives : List (Parser T)}
    {text rest : List Char} {a : T} (hp : p.Reads text rest a) (earlier : Option Failure) :
    (tryEach earlier (p :: alternatives)).Reads text rest a := by
  intro here h
  simp only [tryEach, hp here h]

theorem reads_tryEach_tail {p : Parser T} {alternatives : List (Parser T)}
    {text rest : List Char} {a : T} (hp : p.Stops (text ++ rest))
    (hq : ∀ earlier, (tryEach earlier alternatives).Reads text rest a)
    (earlier : Option Failure) : (tryEach earlier (p :: alternatives)).Reads text rest a := by
  intro here h
  obtain ⟨failure, hf⟩ := hp here h
  simp only [tryEach, hf, ne_eq, not_true, if_false]
  exact hq _ here h

theorem tryEach_stops {alternatives : List (Parser T)} {rest : List Char}
    (hp : ∀ p ∈ alternatives, p.Stops rest) (earlier : Option Failure) :
    (tryEach earlier alternatives).Stops rest := by
  intro here h
  induction alternatives generalizing earlier with
  | nil => exact ⟨_, rfl⟩
  | cons p alternatives ih =>
    obtain ⟨failure, hf⟩ := hp p (by simp) here h
    simp only [tryEach, hf, ne_eq, not_true, if_false]
    exact ih (fun q hq => hp q (by simp [hq])) _

inductive Items (p : Parser T) (rest : List Char) : List Char → List T → Prop
  | none : p.Stops rest → Items p rest [] []
  | more {text texts : List Char} {a : T} {values : List T} : text ≠ [] →
      p.Reads text (texts ++ rest) a → Items p rest texts values →
      Items p rest (text ++ texts) (a :: values)

theorem Items.length_le {p : Parser T} {rest text : List Char} {values : List T}
    (h : Items p rest text values) : values.length ≤ text.length := by
  induction h with
  | none _ => simp
  | more hne _ _ ih =>
    have := List.length_pos_iff.2 hne
    simp only [List.length_append, List.length_cons]
    omega

theorem Items.repeatUpTo {p : Parser T} {rest text : List Char} {values : List T}
    (h : Items p rest text values) (limit : Nat) (hl : values.length < limit) :
    (repeatUpTo p limit).Reads text rest values := by
  induction h generalizing limit with
  | none hs =>
    obtain ⟨limit, rfl⟩ : ∃ n, limit = n + 1 := ⟨limit - 1, by omega⟩
    intro here hr
    obtain ⟨failure, hf⟩ := hs here hr
    simp only [Parser.repeatUpTo, hf, ne_eq, not_true, if_false]
    rfl
  | @more text texts a values hne hp _ ih =>
    obtain ⟨limit, rfl⟩ : ∃ n, limit = n + 1 := ⟨limit - 1, by omega⟩
    intro here hr
    rw [List.append_assoc] at hr
    obtain ⟨hrest, hstop⟩ := here.advance_append text texts rest hr
    have moved : here.offset < (here.advance text.length).offset :=
      here.offset_lt_advance (List.length_pos_iff.2 hne) (by rw [hr]; simp [hne])
    have later := (ih limit (by simpa using hl)).map (a :: ·) _ hrest
    simp only [Parser.repeatUpTo, hp here hr, if_neg (Nat.ne_of_gt moved)]
    rw [later, hstop]

theorem Items.many {p : Parser T} {rest text : List Char} {values : List T}
    (h : Items p rest text values) : (many p).Reads text rest values := by
  intro here hr
  have bound := h.length_le
  have room : values.length < here.rest.length + 1 := by
    rw [hr, List.length_append]
    omega
  exact h.repeatUpTo _ room here hr

theorem Items.many1 {p : Parser T} {rest text : List Char} {a : T} {values : List T}
    (h : Items p rest text (a :: values)) : (many1 p).Reads text rest (a :: values) := by
  cases h with
  | more _ read items => exact Reads.bind read (items.many.map (a :: ·))

/-- With an unlimited number of levels a recursive parser reads what it reads with enough
of them. -/
theorem reads_fix {body : Parser T → Parser T} {text rest : List Char} {a : T}
    (h : (unroll body ((text ++ rest).length + 1)).Reads text rest a) :
    (fix body).Reads text rest a := by
  intro here hr
  rw [← h here hr, fix, hr]

theorem parse_eq_ok {p : Parser T} {text : String} {a : T} (h : p.Reads text.toList [] a) :
    p.parse text = .ok a := by
  have run := h (Cursor.ofText text.toList) (by simp)
  simp only [parse, run]

end Parser

end ParticlePatterns.Parsing
