import ParticlePatterns.Proofs.Parsing.Runs

/-!
# Parsers that end and go on

Three contracts of parsers, each kept by the combinators: that a parser ends, that it stops no
earlier than it starts, also where it fails, and that whoever succeeds has read something.
-/

set_option autoImplicit false

namespace ParticlePatterns.Parsing

def Cursor.Reaches (here there : Cursor) : Prop :=
  ∃ part, here.rest = part ++ there.rest ∧ there.offset = here.offset + bytesOf part

namespace Cursor

variable {here there next : Cursor}

theorem reaches_refl (here : Cursor) : here.Reaches here :=
  ⟨[], rfl, rfl⟩

theorem reaches_advance (here : Cursor) (count : Nat) : here.Reaches (here.advance count) :=
  here.advance_passes count

theorem Reaches.trans (h : here.Reaches there) (h' : there.Reaches next) : here.Reaches next := by
  obtain ⟨first, split, size⟩ := h
  obtain ⟨second, split', size'⟩ := h'
  refine ⟨first ++ second, ?_, ?_⟩
  · rw [split, split', List.append_assoc]
  · rw [size', size, bytesOf_append, Nat.add_assoc]

theorem Reaches.offset_le (h : here.Reaches there) : here.offset ≤ there.offset := by
  obtain ⟨part, _, size⟩ := h
  omega

theorem Reaches.length_le (h : here.Reaches there) : there.rest.length ≤ here.rest.length := by
  obtain ⟨part, split, _⟩ := h
  rw [split, List.length_append]
  omega

/-- What was read is no longer left, in bytes. -/
theorem Reaches.bytes (h : here.Reaches there) :
    there.offset + bytesOf there.rest = here.offset + bytesOf here.rest := by
  obtain ⟨part, split, size⟩ := h
  rw [split, size, bytesOf_append, Nat.add_assoc]

theorem Reaches.length_lt (h : here.Reaches there) (moved : here.offset < there.offset) :
    there.rest.length < here.rest.length := by
  obtain ⟨part, split, size⟩ := h
  have some : part ≠ [] := by
    rintro rfl
    rw [bytesOf_nil] at size
    omega
  rw [split, List.length_append]
  have := List.length_pos_iff.2 some
  omega

end Cursor

variable {T U : Type}

def Outcome.stop? : Outcome T → Option Cursor
  | .ok _ next => some next
  | .fail _ stop => some stop
  | .exhausted => none

def Outcome.map (f : T → U) : Outcome T → Outcome U
  | .ok value next => .ok (f value) next
  | .fail failure stop => .fail failure stop
  | .exhausted => .exhausted

/-- Only what is exhausted stops nowhere. -/
theorem Outcome.ne_exhausted_of_stop? {outcome : Outcome T} {other : Outcome U}
    (same : other.stop? = outcome.stop?) (h : outcome ≠ .exhausted) : other ≠ .exhausted := by
  rintro rfl
  cases outcome with
  | ok | fail => cases same
  | exhausted => exact h rfl

theorem Outcome.stop?_map (f : T → U) (outcome : Outcome T) :
    (outcome.map f).stop? = outcome.stop? := by
  cases outcome <;> rfl

namespace Parser

variable {p : Parser T} {here there stop next : Cursor} {failure : Failure} {value : T}

theorem map_apply (f : T → U) (p : Parser T) (here : Cursor) :
    p.map f here = (p here).map f := by
  unfold Parser.map Parser.bind
  cases p here <;> rfl

theorem stop?_map (f : T → U) (p : Parser T) (here : Cursor) :
    (p.map f here).stop? = (p here).stop? := by
  rw [map_apply, Outcome.stop?_map]

theorem stop?_label (p : Parser T) (expected : String) (here : Cursor) :
    (p.label expected here).stop? = (p here).stop? := by
  unfold Parser.label
  cases p here with
  | fail failure stop =>
    dsimp only
    split <;> rfl
  | ok | exhausted => rfl

theorem stop?_checked (p : Parser T) (pass : T → Option U) (expected : String) (here : Cursor) :
    (p.checked pass expected here).stop? = (p here).stop? := by
  unfold Parser.checked
  cases p here with
  | ok value there =>
    dsimp only
    cases pass value <;> rfl
  | fail | exhausted => rfl

def Halts (p : Parser T) : Prop :=
  ∀ here, p here ≠ .exhausted

def HaltsBelow (p : Parser T) (length : Nat) : Prop :=
  ∀ here : Cursor, here.rest.length < length → p here ≠ .exhausted

def Forward (p : Parser T) : Prop :=
  ∀ here value next, p here = .ok value next → here.Reaches next

/-- What is answered to a text is what the parser came to there. -/
theorem parse_cases {text : String} (h : p (.ofText text.toList) ≠ .exhausted) :
    (∃ value next, p (.ofText text.toList) = .ok value next ∧ p.parse text = .ok value) ∨
      ∃ failure stop, p (.ofText text.toList) = .fail failure stop ∧
        p.parse text = .error failure := by
  cases run : p (.ofText text.toList) with
  | ok value next => exact .inl ⟨value, next, rfl, by simp [Parser.parse, run]⟩
  | fail failure stop => exact .inr ⟨failure, stop, rfl, by simp [Parser.parse, run]⟩
  | exhausted => exact absurd run h

theorem halts_pure (value : T) : (pure value).Halts :=
  fun _ => nofun

theorem halts_string (text : String) : (string text).Halts := by
  intro here
  unfold string
  split <;> nofun

theorem halts_pattern (token : Recogniser) (expected : String) :
    (pattern token expected).Halts := by
  intro here
  unfold pattern
  split <;> nofun

theorem halts_eof : eof.Halts := by
  intro here
  unfold eof
  split <;> nofun

theorem Halts.map (h : p.Halts) (f : T → U) : (p.map f).Halts :=
  fun here => Outcome.ne_exhausted_of_stop? (stop?_map f p here) (h here)

theorem Halts.checked (h : p.Halts) (pass : T → Option U) (expected : String) :
    (p.checked pass expected).Halts :=
  fun here => Outcome.ne_exhausted_of_stop? (stop?_checked p pass expected here) (h here)

theorem HaltsBelow.label {n : Nat} (h : p.HaltsBelow n) (expected : String) :
    (p.label expected).HaltsBelow n :=
  fun here hl => Outcome.ne_exhausted_of_stop? (stop?_label p expected here) (h here hl)

theorem HaltsBelow.bind {q : T → Parser U} {n m : Nat} (hp : p.HaltsBelow n)
    (hq : ∀ value, (q value).HaltsBelow m)
    (left : ∀ here value there, here.rest.length < n → p here = .ok value there →
      there.rest.length < m) : (p.bind q).HaltsBelow n := by
  intro here hl
  unfold Parser.bind
  cases run : p here with
  | ok value there => exact hq value there (left here value there hl run)
  | fail => nofun
  | exhausted => exact absurd run (hp here hl)

theorem haltsBelow_tryEach {ps : List (Parser T)} {n : Nat} (h : ∀ p ∈ ps, p.HaltsBelow n)
    (earlier : Option Failure) : (tryEach earlier ps).HaltsBelow n := by
  intro here hl
  induction ps generalizing earlier with
  | nil => simp [tryEach]
  | cons p ps ih =>
    obtain ⟨first, later⟩ := List.forall_mem_cons.1 h
    simp only [tryEach]
    cases run : p here with
    | ok => simp
    | fail failure stop =>
      dsimp only
      split
      · simp
      · exact ih later _
    | exhausted => exact absurd run (first here hl)

/-! Parsers that go on from where they start, also where they fail. -/

def Onward (p : Parser T) : Prop :=
  ∀ here stop, (p here).stop? = some stop → here.Reaches stop

def Consumes (p : Parser T) : Prop :=
  ∀ here value next, p here = .ok value next → here.offset < next.offset

variable {q : T → Parser U}

theorem Onward.ok (h : p.Onward) (run : p here = .ok value next) : here.Reaches next :=
  h here next (by rw [run]; rfl)

theorem Onward.fail (h : p.Onward) (run : p here = .fail failure stop) : here.Reaches stop :=
  h here stop (by rw [run]; rfl)

theorem Onward.forward (h : p.Onward) : p.Forward :=
  fun _ _ _ run => h.ok run

theorem onward_pure (value : T) : (pure value).Onward := by
  rintro here _ ⟨⟩
  exact here.reaches_refl

theorem onward_string (text : String) : (string text).Onward := by
  intro here stop h
  unfold string at h
  split at h <;> cases h
  · exact here.reaches_advance _
  · exact here.reaches_refl

theorem onward_pattern (token : Recogniser) (expected : String) :
    (pattern token expected).Onward := by
  intro here stop h
  unfold pattern at h
  split at h <;> cases h
  · exact here.reaches_advance _
  · exact here.reaches_refl

theorem onward_eof : eof.Onward := by
  intro here stop h
  unfold eof at h
  split at h <;> cases h <;> exact here.reaches_refl

theorem Onward.bind (hp : p.Onward) (hq : ∀ value, (q value).Onward) : (p.bind q).Onward := by
  intro here stop h
  unfold Parser.bind at h
  cases run : p here with
  | ok value there =>
    rw [run] at h
    exact (hp.ok run).trans (hq value there stop h)
  | fail failure there =>
    rw [run] at h
    cases h
    exact hp.fail run
  | exhausted =>
    rw [run] at h
    cases h

theorem Onward.map (hp : p.Onward) (f : T → U) : (p.map f).Onward :=
  fun here stop h => hp here stop ((stop?_map f p here).symm.trans h)

theorem Onward.skip {q : Parser U} (hp : p.Onward) (hq : q.Onward) : (p.skip q).Onward :=
  hp.bind fun value => hq.map fun _ => value

theorem label_ok {expected : String} (h : p.label expected here = .ok value next) :
    p here = .ok value next := by
  unfold Parser.label at h
  cases run : p here with
  | ok a there =>
    rw [run] at h
    exact h
  | fail failure stop =>
    simp only [run] at h
    split at h <;> cases h
  | exhausted =>
    rw [run] at h
    cases h

theorem Onward.label (hp : p.Onward) (expected : String) : (p.label expected).Onward :=
  fun here stop h => hp here stop ((stop?_label p expected here).symm.trans h)

theorem Onward.checked (hp : p.Onward) (pass : T → Option U) (expected : String) :
    (p.checked pass expected).Onward :=
  fun here stop h => hp here stop ((stop?_checked p pass expected here).symm.trans h)

theorem onward_tryEach {ps : List (Parser T)} (h : ∀ p ∈ ps, p.Onward)
    (earlier : Option Failure) : (tryEach earlier ps).Onward := by
  intro here stop came
  induction ps generalizing earlier with
  | nil =>
    cases came
    exact here.reaches_refl
  | cons p ps ih =>
    obtain ⟨first, later⟩ := List.forall_mem_cons.1 h
    cases run : p here with
    | ok value there =>
      simp only [tryEach, run] at came
      cases came
      exact first.ok run
    | fail failure there =>
      simp only [tryEach, run] at came
      split at came
      · cases came
        exact first.fail run
      · exact ih later _ came
    | exhausted =>
      simp only [tryEach, run] at came
      cases came

theorem onward_choice {ps : List (Parser T)} (h : ∀ p ∈ ps, p.Onward) : (choice ps).Onward :=
  onward_tryEach h none

theorem Onward.repeatUpTo (hp : p.Onward) (limit : Nat) : (repeatUpTo p limit).Onward := by
  induction limit with
  | zero => rintro here _ ⟨⟩
  | succ limit ih =>
    intro here stop came
    rw [Parser.repeatUpTo] at came
    cases run : p here with
    | ok value there =>
      simp only [run] at came
      split at came
      · cases came
        exact hp.ok run
      · exact (hp.ok run).trans ((ih.map (value :: ·)) there stop came)
    | fail failure there =>
      simp only [run] at came
      split at came <;> cases came
      · exact hp.fail run
      · exact here.reaches_refl
    | exhausted =>
      simp only [run] at came
      cases came

theorem Onward.many (hp : p.Onward) : (many p).Onward :=
  fun here => hp.repeatUpTo (here.rest.length + 1) here

/-- What reads something is first, and what comes behind does not go back. -/
theorem Consumes.bind (hp : p.Consumes) (hq : ∀ value, (q value).Forward) :
    (p.bind q).Consumes := by
  intro here value next run
  obtain ⟨a, there, first, second⟩ := bind_ok run
  exact (hp here a there first).trans_le (hq a there value next second).offset_le

theorem Consumes.checked (hp : p.Consumes) (pass : T → Option U) (expected : String) :
    (p.checked pass expected).Consumes := by
  intro here value next h
  unfold Parser.checked at h
  cases run : p here with
  | ok a there =>
    simp only [run] at h
    cases passed : pass a <;> rw [passed] at h <;> cases h
    exact hp here a next run
  | fail | exhausted =>
    rw [run] at h
    cases h

theorem Consumes.map (hp : p.Consumes) (f : T → U) : (p.map f).Consumes :=
  hp.bind fun value => (onward_pure (f value)).forward

/-- A token with at least one character. -/
theorem consumes_pattern {token : Recogniser} {expected : String}
    (h : ∀ text n, token text = some n → text ≠ [] ∧ 0 < n) :
    (pattern token expected).Consumes := by
  intro here value next run
  unfold pattern at run
  cases found : token here.rest with
  | some n =>
    rw [found] at run
    cases run
    obtain ⟨some, long⟩ := h _ _ found
    exact here.offset_lt_advance long some
  | none =>
    rw [found] at run
    cases run

theorem consumes_string {text : String} (h : text ≠ "") : (string text).Consumes := by
  intro here value next run
  have passed := (string_ok run).2
  have some : bytesOf text.toList ≠ 0 := fun none => h (by simpa using eq_nil_of_bytesOf none)
  omega

end Parser

end ParticlePatterns.Parsing
