import Mathlib
import ParticlePatterns.Parsing.Combinator

/-!
# Positions

What was read of a text fixes where a cursor stands: its offset is the size of that part in
bytes, and its line and column are counted in it. Parsers keep to such places. They never go
back, and a failure is located at a place between where the parser started and where it gave
up. Two places with the same offset are the same place, so a parser that did not move fails
where it started.
-/

set_option autoImplicit false

namespace ParticlePatterns.Parsing

def bytesOf (part : List Char) : Nat :=
  (String.ofList part).utf8ByteSize

@[simp] theorem bytesOf_nil : bytesOf [] = 0 := rfl

@[simp] theorem bytesOf_append (first second : List Char) :
    bytesOf (first ++ second) = bytesOf first + bytesOf second := by
  simp [bytesOf]

@[simp] theorem bytesOf_cons (c : Char) (part : List Char) :
    bytesOf (c :: part) = c.utf8Size + bytesOf part := by
  simp [bytesOf, String.utf8ByteSize_ofList]

theorem eq_nil_of_bytesOf {part : List Char} (h : bytesOf part = 0) : part = [] := by
  cases part with
  | nil => rfl
  | cons c part =>
    have size := c.utf8Size_pos
    rw [bytesOf_cons] at h
    omega

structure Cursor.Behind (read : List Char) (here : Cursor) : Prop where
  offset : here.offset = bytesOf read
  line : here.line = 1 + read.count '\n'
  column : here.column = 1 + (read.rtakeWhile (· ≠ '\n')).length

namespace Cursor

def Placed (text : List Char) (here : Cursor) : Prop :=
  ∃ read, text = read ++ here.rest ∧ here.Behind read

variable {text : List Char} {here there : Cursor}

theorem Placed.step (h : here.Placed text) : here.step.Placed text := by
  obtain ⟨read, rfl, offset, line, column⟩ := h
  obtain ⟨_ | ⟨c, rest⟩, _, _, _⟩ := here
  · exact ⟨read, rfl, offset, line, column⟩
  · dsimp only at offset line column
    refine ⟨read ++ [c], by simp, ?_⟩
    by_cases newline : c = '\n'
    · simp only [Cursor.step, if_pos newline]
      exact ⟨by simp [offset], by simp [line, newline, Nat.add_assoc],
        by simp [newline]⟩
    · simp only [Cursor.step, if_neg newline]
      exact ⟨by simp [offset], by simp [line, newline],
        by simp [column, newline, Nat.add_assoc]⟩

theorem Placed.advance (h : here.Placed text) (count : Nat) : (here.advance count).Placed text := by
  induction count generalizing here with
  | zero => exact h
  | succ count ih => exact ih h.step

/-- From one place to a later one some of the text is passed. -/
theorem Placed.between (h : here.Placed text) (ht : there.Placed text)
    (hl : here.offset ≤ there.offset) : ∃ passed, here.rest = passed ++ there.rest ∧
      there.offset = here.offset + bytesOf passed := by
  obtain ⟨first, rfl, hf⟩ := h
  obtain ⟨second, split, hs⟩ := ht
  rw [hf.offset, hs.offset] at *
  obtain ⟨passed, rfl, same⟩ | ⟨back, rfl, same⟩ := List.append_eq_append_iff.1 split
  · exact ⟨passed, same, bytesOf_append first passed⟩
  · have none : back = [] := eq_nil_of_bytesOf (by rw [bytesOf_append] at hl; omega)
    subst none
    exact ⟨[], by simpa using same.symm, by simp⟩

/-- Places are told apart by their offsets. -/
theorem Placed.eq_of_offset (h : here.Placed text) (ht : there.Placed text)
    (same : here.offset = there.offset) : here = there := by
  obtain ⟨passed, rest, size⟩ := h.between ht same.le
  obtain rfl : passed = [] := eq_nil_of_bytesOf (by omega)
  obtain ⟨first, rfl, hf⟩ := h
  obtain ⟨second, split, hs⟩ := ht
  rw [rest] at split
  obtain rfl := List.append_cancel_right split
  obtain ⟨_, _, _, _⟩ := here
  obtain ⟨_, _, _, _⟩ := there
  simp only [Cursor.mk.injEq]
  exact ⟨rest, same, hf.line.trans hs.line.symm, hf.column.trans hs.column.symm⟩

end Cursor

/-- An outcome at places of a text, not before the one where the parser started. A failure
tells its place in full; it is no later than where the parser gave up. -/
inductive Outcome.Exact {T : Type} (text : List Char) (here : Cursor) : Outcome T → Prop
  | ok {value : T} {next : Cursor} : next.Placed text → here.offset ≤ next.offset →
      Exact text here (.ok value next)
  | fail {stop : Cursor} (spot : Cursor) (expected : String) : spot.Placed text →
      stop.Placed text → here.offset ≤ spot.offset → spot.offset ≤ stop.offset →
      Exact text here (.fail (spot.expected expected) stop)
  | exhausted : Exact text here .exhausted

section Outcomes

variable {T : Type} {text : List Char} {here there : Cursor} {outcome : Outcome T}

theorem Outcome.Exact.later (h : outcome.Exact text there) (hl : here.offset ≤ there.offset) :
    outcome.Exact text here := by
  cases h with
  | ok placed after => exact .ok placed (hl.trans after)
  | fail spot expected hs hp after before =>
    exact .fail spot expected hs hp (hl.trans after) before
  | exhausted => exact .exhausted

/-- A failure says nothing of the value that was looked for. -/
theorem Outcome.Exact.fail_cast {U : Type} {failure : Failure} {stop : Cursor}
    (h : (Outcome.fail failure stop : Outcome T).Exact text here) :
    (Outcome.fail failure stop : Outcome U).Exact text here := by
  cases h with
  | fail spot expected hs hp after before => exact .fail spot expected hs hp after before

/-- A parser that gave up without moving failed where it started, and stands there still. -/
theorem Outcome.Exact.unmoved {failure : Failure} {stop : Cursor} (h : here.Placed text)
    (he : (Outcome.fail failure stop : Outcome T).Exact text here)
    (same : stop.offset = here.offset) :
    stop = here ∧ failure = here.expected failure.expected := by
  cases he with
  | fail spot expected hs hp after before =>
    have at_spot : spot = here := hs.eq_of_offset h (by omega)
    subst at_spot
    exact ⟨hp.eq_of_offset h same, rfl⟩

end Outcomes

@[simp] theorem Cursor.expected_merge (here : Cursor) (first second : String) :
    (here.expected first).merge (here.expected second) =
      here.expected (if first = second then first else first ++ " or " ++ second) := by
  by_cases same : first = second <;> simp [Failure.merge, Cursor.expected, same]

namespace Parser

variable {T U : Type} {text : List Char}

def Exact (text : List Char) (p : Parser T) : Prop :=
  ∀ here : Cursor, here.Placed text → (p here).Exact text here

def checked (p : Parser T) (pass : T → Option U) (expected : String) : Parser U :=
  fun here => match p here with
    | .ok value there => match pass value with
      | some passed => .ok passed there
      | none => .fail (here.expected expected) there
    | .fail failure stop => .fail failure stop
    | .exhausted => .exhausted

theorem exact_ok (value : T) {here : Cursor} (h : here.Placed text) :
    (Outcome.ok value here).Exact text here :=
  .ok h le_rfl

theorem exact_expected (expected : String) {here : Cursor} (h : here.Placed text) :
    (Outcome.fail (here.expected expected) here : Outcome T).Exact text here :=
  .fail here expected h h le_rfl le_rfl

theorem exact_advance (value : T) {here : Cursor} (h : here.Placed text) (count : Nat) :
    (Outcome.ok value (here.advance count)).Exact text here :=
  .ok (h.advance count) (here.offset_le_advance count)

theorem exact_string (literal : String) : (string literal).Exact text := by
  intro here h
  unfold string
  split
  · exact exact_advance literal h _
  · exact exact_expected _ h

theorem exact_pattern (token : Recogniser) (expected : String) :
    (pattern token expected).Exact text := by
  intro here h
  unfold pattern
  split
  · exact exact_advance _ h _
  · exact exact_expected _ h

theorem exact_eof : eof.Exact text := by
  intro here h
  unfold eof
  split
  · exact exact_ok () h
  · exact exact_expected _ h

theorem Exact.bind {p : Parser T} {next : T → Parser U} (hp : p.Exact text)
    (hn : ∀ value, (next value).Exact text) : (p.bind next).Exact text := by
  intro here h
  have first := hp here h
  cases found : p here with
  | ok value there =>
    rw [found] at first
    simp only [Parser.bind, found]
    cases first with
    | ok placed after => exact (hn value there placed).later after
  | fail failure stop =>
    rw [found] at first
    simp only [Parser.bind, found]
    exact first.fail_cast
  | exhausted =>
    simp only [Parser.bind, found]
    exact .exhausted

theorem Exact.map {p : Parser T} (hp : p.Exact text) (f : T → U) : (p.map f).Exact text :=
  hp.bind fun value _ h => exact_ok (f value) h

theorem Exact.andThen {p : Parser T} {q : Parser U} (hp : p.Exact text) (hq : q.Exact text) :
    (p.andThen q).Exact text :=
  hp.bind fun _ => hq

theorem Exact.skip {p : Parser T} {q : Parser U} (hp : p.Exact text) (hq : q.Exact text) :
    (p.skip q).Exact text :=
  hp.bind fun value => hq.map fun _ => value

theorem Exact.label {p : Parser T} (hp : p.Exact text) (expected : String) :
    (p.label expected).Exact text := by
  intro here h
  have first := hp here h
  cases found : p here with
  | ok value there =>
    rw [found] at first
    simpa only [Parser.label, found] using first
  | fail failure stop =>
    rw [found] at first
    simp only [Parser.label, found]
    split
    · cases first with
      | fail spot _ hs hp after before => exact .fail spot expected hs hp after before
    · exact first
  | exhausted =>
    simp only [Parser.label, found]
    exact .exhausted

theorem Exact.checked {p : Parser T} (hp : p.Exact text) (pass : T → Option U)
    (expected : String) : (p.checked pass expected).Exact text := by
  intro here h
  have first := hp here h
  cases found : p here with
  | ok value there =>
    rw [found] at first
    simp only [Parser.checked, found]
    cases first with
    | ok placed after =>
      cases pass value with
      | some passed => exact .ok placed after
      | none => exact .fail here expected h placed le_rfl after
  | fail failure stop =>
    rw [found] at first
    simp only [Parser.checked, found]
    exact first.fail_cast
  | exhausted =>
    simp only [Parser.checked, found]
    exact .exhausted

theorem exact_sequence {ps : List (Parser T)} (h : ∀ p ∈ ps, p.Exact text) :
    (sequence ps).Exact text := by
  induction ps with
  | nil => exact fun here placed => exact_ok [] placed
  | cons p ps ih =>
    obtain ⟨first, later⟩ := List.forall_mem_cons.1 h
    exact first.bind fun value => (ih later).map (value :: ·)

theorem Exact.repeatUpTo {p : Parser T} (hp : p.Exact text) (limit : Nat) :
    (repeatUpTo p limit).Exact text := by
  induction limit with
  | zero => exact fun here h => .exhausted
  | succ limit ih =>
    intro here h
    have first := hp here h
    cases found : p here with
    | ok value there =>
      rw [found] at first
      simp only [Parser.repeatUpTo, found]
      cases first with
      | ok placed after =>
        split
        · exact .ok placed after
        · exact ((ih.map (value :: ·)) there placed).later after
    | fail failure stop =>
      rw [found] at first
      simp only [Parser.repeatUpTo, found]
      split
      · exact first.fail_cast
      · exact exact_ok [] h
    | exhausted =>
      simp only [Parser.repeatUpTo, found]
      exact .exhausted

theorem Exact.many {p : Parser T} (hp : p.Exact text) : (many p).Exact text :=
  fun here h => hp.repeatUpTo (here.rest.length + 1) here h

theorem Exact.many1 {p : Parser T} (hp : p.Exact text) : (many1 p).Exact text :=
  hp.bind fun value => hp.many.map (value :: ·)

theorem Exact.optional {p : Parser T} (hp : p.Exact text) : (optional p).Exact text := by
  intro here h
  have first := hp here h
  cases found : p here with
  | ok value there =>
    rw [found] at first
    simp only [Parser.optional, found]
    cases first with
    | ok placed after => exact .ok placed after
  | fail failure stop =>
    rw [found] at first
    simp only [Parser.optional, found]
    split
    · exact first.fail_cast
    · exact exact_ok none h
  | exhausted =>
    simp only [Parser.optional, found]
    exact .exhausted

/-! Alternatives are tried at one place, and so are the failures that are merged there. -/

def TriedAt (here : Cursor) (earlier : Option Failure) : Prop :=
  ∀ failure ∈ earlier, failure = here.expected failure.expected

theorem triedAt_none (here : Cursor) : TriedAt here none :=
  fun _ none => by cases none

def tryEachBy (join : Failure → Failure → Failure) (earlier : Option Failure) :
    List (Parser T) → Parser T
  | [] => fun here => .fail (earlier.getD (here.expected "an alternative")) here
  | p :: rest => fun here => match p here with
    | .fail failure stop =>
        if stop.offset ≠ here.offset then .fail failure stop
        else
          let joined := match earlier with
            | some previous => join previous failure
            | none => failure
          tryEachBy join (some joined) rest here
    | outcome => outcome

def choiceBy (join : Failure → Failure → Failure) (alternatives : List (Parser T)) : Parser T :=
  tryEachBy join none alternatives

theorem choice_eq_choiceBy (alternatives : List (Parser T)) :
    choice alternatives = choiceBy Failure.merge alternatives := by
  have each : ∀ earlier, tryEach earlier alternatives =
      tryEachBy Failure.merge earlier alternatives := by
    induction alternatives with
    | nil => exact fun _ => rfl
    | cons p rest ih =>
      intro earlier
      funext here
      cases run : p here <;> cases earlier <;> simp [tryEach, tryEachBy, run, ih]
  exact each none

variable {join : Failure → Failure → Failure}

/-- Where the failures that are joined stand at the place of the choice, so does the choice. -/
theorem exact_tryEachBy
    (hj : ∀ f g : Failure, f.offset = g.offset → join f g = f.merge g) {ps : List (Parser T)}
    (h : ∀ p ∈ ps, p.Exact text) {here : Cursor} (placed : here.Placed text)
    {earlier : Option Failure} (tried : TriedAt here earlier) :
    (tryEachBy join earlier ps here).Exact text here ∧
      tryEachBy join earlier ps here = tryEachBy Failure.merge earlier ps here := by
  induction ps generalizing earlier with
  | nil =>
    refine ⟨?_, rfl⟩
    cases earlier with
    | none => exact exact_expected _ placed
    | some failure =>
      rw [tried failure rfl]
      exact exact_expected _ placed
  | cons p ps ih =>
    obtain ⟨first, later⟩ := List.forall_mem_cons.1 h
    have first := first here placed
    cases found : p here with
    | ok value there =>
      rw [found] at first
      simpa only [tryEachBy, found, and_true] using first
    | exhausted =>
      simp only [tryEachBy, found, and_true]
      exact .exhausted
    | fail failure stop =>
      rw [found] at first
      simp only [tryEachBy, found]
      split
      · exact ⟨first, rfl⟩
      next same =>
        obtain ⟨_, started⟩ := first.unmoved placed (not_not.1 same)
        cases earlier with
        | none => exact ih later fun merged hm => by cases hm; exact started
        | some previous =>
          have before := tried previous rfl
          have equal : previous.offset = failure.offset := by rw [before, started]; rfl
          simp only [hj previous failure equal]
          refine ih later fun merged hm => ?_
          cases hm
          rw [before, started, Cursor.expected_merge]
          rfl

theorem exact_choice {ps : List (Parser T)} (h : ∀ p ∈ ps, p.Exact text) :
    (choice ps).Exact text := by
  intro here placed
  rw [choice_eq_choiceBy]
  exact (exact_tryEachBy (fun _ _ _ => rfl) h placed (triedAt_none here)).1

/-- Parsers of the library. A deferred one runs, wherever it is run, as some other parser of the
library; and a recursion without end gives no answer. -/
inductive Combined : {T : Type} → Parser T → Prop
  | string (literal : String) : Combined (string literal)
  | pattern (token : Recogniser) (expected : String) : Combined (pattern token expected)
  | pure {T : Type} (value : T) : Combined (pure value)
  | fail {T : Type} (expected : String) : Combined (fail expected : Parser T)
  | eof : Combined eof
  | sequence {T : Type} {ps : List (Parser T)} : (∀ p ∈ ps, Combined p) → Combined (sequence ps)
  | choice {T : Type} {ps : List (Parser T)} : (∀ p ∈ ps, Combined p) → Combined (choice ps)
  | many {T : Type} {p : Parser T} : Combined p → Combined (many p)
  | many1 {T : Type} {p : Parser T} : Combined p → Combined (many1 p)
  | optional {T : Type} {p : Parser T} : Combined p → Combined (optional p)
  | andThen {T U : Type} {p : Parser T} {q : Parser U} : Combined p → Combined q →
      Combined (p.andThen q)
  | skip {T U : Type} {p : Parser T} {q : Parser U} : Combined p → Combined q → Combined (p.skip q)
  | bind {T U : Type} {p : Parser T} {next : T → Parser U} : Combined p →
      (∀ value, Combined (next value)) → Combined (p.bind next)
  | map {T U : Type} {p : Parser T} (f : T → U) : Combined p → Combined (p.map f)
  | label {T : Type} {p : Parser T} (expected : String) : Combined p → Combined (p.label expected)
  | checked {T U : Type} {p : Parser T} (pass : T → Option U) (expected : String) : Combined p →
      Combined (p.checked pass expected)
  | lazy {T : Type} (build : Cursor → Parser T) : (∀ here, Combined (build here)) →
      Combined fun here => build here here
  | endless {T : Type} : Combined (fun _ => .exhausted : Parser T)

theorem Combined.exact {p : Parser T} (h : Combined p) : p.Exact text := by
  induction h with
  | string literal => exact exact_string literal
  | pattern token expected => exact exact_pattern token expected
  | pure value => exact fun _ placed => exact_ok value placed
  | fail expected => exact fun _ placed => exact_expected expected placed
  | eof => exact exact_eof
  | sequence _ ih => exact exact_sequence ih
  | choice _ ih => exact exact_choice ih
  | many _ ih => exact ih.many
  | many1 _ ih => exact ih.many1
  | optional _ ih => exact ih.optional
  | andThen _ _ first second => exact first.andThen second
  | skip _ _ first second => exact first.skip second
  | bind _ _ first next => exact first.bind next
  | map f _ ih => exact ih.map f
  | label expected _ ih => exact ih.label expected
  | checked pass expected _ ih => exact ih.checked pass expected
  | lazy build _ ih => exact fun here placed => ih here here placed
  | endless => exact fun _ _ => .exhausted

end Parser

end ParticlePatterns.Parsing
