import ParticlePatterns.Proofs.Parsing.Positions
import ParticlePatterns.Proofs.Parsing.Settles

/-!
# Runs of parsers

What the outcome of a combined parser says of the runs of its parts: which of them failed, and
what the others went over before. A parser that runs on passes a part of the text, as long as
its offset grows.
-/

set_option autoImplicit false

namespace ParticlePatterns.Parsing

theorem Cursor.step_passes (here : Cursor) : ∃ text, here.rest = text ++ here.step.rest ∧
    here.step.offset = here.offset + bytesOf text := by
  obtain ⟨_ | ⟨c, rest⟩, offset, line, column⟩ := here
  · exact ⟨[], rfl, rfl⟩
  · refine ⟨[c], ?_⟩
    by_cases newline : c = '\n' <;> simp [Cursor.step, newline]

theorem Cursor.advance_passes (here : Cursor) (count : Nat) : ∃ text,
    here.rest = text ++ (here.advance count).rest ∧
      (here.advance count).offset = here.offset + bytesOf text := by
  induction count generalizing here with
  | zero => exact ⟨[], rfl, rfl⟩
  | succ count ih =>
    obtain ⟨first, split, size⟩ := here.step_passes
    obtain ⟨second, split', size'⟩ := ih here.step
    refine ⟨first ++ second, ?_, ?_⟩
    · rw [split, split', List.append_assoc]
      rfl
    · rw [Cursor.advance, size', size, bytesOf_append, Nat.add_assoc]

theorem Cursor.advance_of_nil {here : Cursor} (h : here.rest = []) (count : Nat) :
    here.advance count = here := by
  have step : here.step = here := by
    obtain ⟨_ | ⟨c, rest⟩, offset, line, column⟩ := here
    · rfl
    · cases h
  induction count with
  | zero => rfl
  | succ count ih => rw [Cursor.advance, step, ih]

/-- Two ways on from a cursor that leave the same text lead to the same place. -/
theorem Cursor.advance_eq_of_rest {here : Cursor} {m n : Nat}
    (h : (here.advance m).rest = (here.advance n).rest) : here.advance m = here.advance n := by
  wlog le : m ≤ n generalizing m n
  · exact (this h.symm (Nat.le_of_not_le le)).symm
  obtain ⟨more, rfl⟩ := Nat.exists_eq_add_of_le le
  rw [Cursor.advance_add] at h ⊢
  generalize here.advance m = there at h ⊢
  rw [Cursor.advance_rest] at h
  cases more with
  | zero => rfl
  | succ more =>
    have ended : there.rest = [] := by
      have length := congrArg List.length h
      rw [List.length_drop] at length
      exact List.length_eq_zero_iff.1 (by omega)
    exact (Cursor.advance_of_nil ended _).symm

theorem Cursor.offset_lt_of_shorter (here : Cursor) {count : Nat}
    (h : (here.advance count).rest.length < here.rest.length) :
    here.offset < (here.advance count).offset := by
  refine here.offset_lt_advance (Nat.pos_of_ne_zero ?_) ?_
  · rintro rfl
    exact absurd h (lt_irrefl _)
  · intro ended
    simp [ended] at h

def Outcome.reach {T : Type} : Outcome T → Option Nat
  | .ok _ next => some next.offset
  | .fail failure _ => some failure.offset
  | .exhausted => none

namespace Parser

variable {T U : Type} {p : Parser T} {here stop next : Cursor} {failure : Failure}

/-- Giving up without moving, so that something else is tried. -/
def Balks (p : Parser T) (here : Cursor) : Prop :=
  ∃ failure stop, p here = .fail failure stop ∧ stop.offset = here.offset

theorem reach_map (f : T → U) : (p.map f here).reach = (p here).reach := by
  unfold Parser.map Parser.bind
  cases p here <;> rfl

theorem bind_fail {q : T → Parser U} (h : p.bind q here = .fail failure stop) :
    p here = .fail failure stop ∨
      ∃ value next, p here = .ok value next ∧ q value next = .fail failure stop := by
  unfold Parser.bind at h
  cases run : p here with
  | ok value next =>
    rw [run] at h
    exact .inr ⟨value, next, rfl, h⟩
  | fail other there =>
    rw [run] at h
    cases h
    exact .inl rfl
  | exhausted =>
    rw [run] at h
    cases h

theorem bind_ok {q : T → Parser U} {value : U} (h : p.bind q here = .ok value next) :
    ∃ a there, p here = .ok a there ∧ q a there = .ok value next := by
  unfold Parser.bind at h
  cases run : p here with
  | ok a there =>
    rw [run] at h
    exact ⟨a, there, rfl, h⟩
  | fail other there =>
    rw [run] at h
    cases h
  | exhausted =>
    rw [run] at h
    cases h

/-- A combined parser gets as far as its first part where that fails, and else as far as the
second. -/
theorem mem_reach_bind {q : T → Parser U} {offset : Nat} (h : offset ∈ (p.bind q here).reach) :
    (∃ failure stop, p here = .fail failure stop ∧ offset = failure.offset) ∨
      ∃ value next, p here = .ok value next ∧ offset ∈ (q value next).reach := by
  unfold Parser.bind at h
  cases run : p here with
  | ok value next =>
    rw [run] at h
    exact .inr ⟨value, next, rfl, h⟩
  | fail failure stop =>
    rw [run] at h
    cases h
    exact .inl ⟨failure, stop, rfl, rfl⟩
  | exhausted =>
    rw [run] at h
    cases h

theorem map_fail {f : T → U} (h : p.map f here = .fail failure stop) :
    p here = .fail failure stop := by
  obtain failed | ⟨value, next, _, made⟩ := bind_fail h
  · exact failed
  · cases made

theorem map_ok {f : T → U} {value : U} (h : p.map f here = .ok value next) :
    ∃ a, p here = .ok a next ∧ value = f a := by
  obtain ⟨a, there, run, made⟩ := bind_ok h
  cases made
  exact ⟨a, run, rfl⟩

theorem skip_fail {q : Parser U} (h : p.skip q here = .fail failure stop) :
    p here = .fail failure stop ∨
      ∃ value next, p here = .ok value next ∧ q next = .fail failure stop := by
  obtain failed | ⟨value, next, run, failed⟩ := bind_fail h
  · exact .inl failed
  · exact .inr ⟨value, next, run, map_fail failed⟩

theorem skip_ok {q : Parser U} {value : T} (h : p.skip q here = .ok value next) :
    ∃ there behind, p here = .ok value there ∧ q there = .ok behind next := by
  obtain ⟨a, there, run, more⟩ := bind_ok h
  obtain ⟨behind, run', rfl⟩ := map_ok more
  exact ⟨there, behind, run, run'⟩

theorem string_fail {text : String} (h : string text here = .fail failure stop) :
    failure.offset = here.offset ∧ stop = here := by
  unfold string at h
  split at h
  · cases h
  · cases h
    exact ⟨rfl, rfl⟩

theorem string_ok {text value : String} (h : string text here = .ok value next) :
    here.rest = text.toList ++ next.rest ∧
      next.offset = here.offset + bytesOf text.toList := by
  unfold string at h
  split at h
  next found =>
    cases h
    obtain ⟨rest, split⟩ := List.isPrefixOf_iff_prefix.1 found
    obtain ⟨passed, split', size⟩ := here.advance_passes text.length
    rw [Cursor.advance_rest, ← String.length_toList, ← split, List.drop_left] at split'
    rw [← List.append_cancel_right split'] at size
    rw [Cursor.advance_rest, ← String.length_toList, ← split, List.drop_left]
    exact ⟨rfl, size⟩
  · cases h

theorem pattern_fail {token : Recogniser} {expected : String}
    (h : pattern token expected here = .fail failure stop) : failure.offset = here.offset := by
  unfold pattern at h
  split at h
  · cases h
  · cases h
    rfl

theorem eof_fail (h : eof here = .fail failure stop) : failure.offset = here.offset := by
  unfold eof at h
  split at h
  · cases h
  · cases h
    rfl

theorem label_fail {expected : String} (h : p.label expected here = .fail failure stop) :
    ∃ other, p here = .fail other stop ∧ failure.offset = other.offset := by
  unfold Parser.label at h
  cases run : p here with
  | ok value next =>
    rw [run] at h
    cases h
  | exhausted =>
    rw [run] at h
    cases h
  | fail other there =>
    simp only [run] at h
    split at h <;> cases h <;> exact ⟨_, rfl, rfl⟩

theorem balks_bind (h : p.Balks here) (q : T → Parser U) : (p.bind q).Balks here := by
  obtain ⟨failure, stop, run, same⟩ := h
  exact ⟨failure, stop, by rw [Parser.bind, run], same⟩

/-- A repetition ends where a further item balks. -/
theorem balks_of_repeatUpTo {inside : Cursor → Prop}
    (moves : ∀ {here value next}, inside here → p here = .ok value next →
      inside next ∧ next.offset ≠ here.offset)
    {limit : Nat} {values : List T} (hi : inside here)
    (h : repeatUpTo p limit here = .ok values next) : p.Balks next := by
  induction limit generalizing here values with
  | zero => cases h
  | succ limit ih =>
    rw [repeatUpTo] at h
    cases run : p here with
    | ok value there =>
      obtain ⟨still, moved⟩ := moves hi run
      simp only [run, if_neg moved] at h
      obtain ⟨more, later, _⟩ := map_ok h
      exact ih still later
    | fail failure stop =>
      simp only [run] at h
      split at h
      · cases h
      next same =>
        cases h
        exact ⟨failure, stop, run, not_not.1 same⟩
    | exhausted =>
      simp only [run] at h
      cases h

/-- Where its first item balks a repetition gets nowhere. -/
theorem free_of_repeatUpTo {limit offset : Nat}
    (h : offset ∈ (repeatUpTo p (limit + 1) here).reach) :
    offset = here.offset ∨ ¬p.Balks here := by
  by_cases balks : p.Balks here
  · obtain ⟨failure, stop, failed, same⟩ := balks
    simp only [repeatUpTo, failed, same, ne_eq, not_true, if_false] at h
    cases h
    exact .inl rfl
  · exact .inr balks

/-- A repetition fails where one of its items does after it has moved. -/
theorem item_of_repeatUpTo_fail {limit : Nat} (h : repeatUpTo p limit here = .fail failure stop) :
    ∃ there, p there = .fail failure stop ∧ stop.offset ≠ there.offset := by
  induction limit generalizing here with
  | zero => cases h
  | succ limit ih =>
    rw [repeatUpTo] at h
    cases run : p here with
    | ok value there =>
      simp only [run] at h
      split at h
      · cases h
      · exact ih (map_fail h)
    | fail failure stop =>
      simp only [run] at h
      split at h
      next moved =>
        cases h
        exact ⟨here, run, moved⟩
      · cases h
    | exhausted =>
      simp only [run] at h
      cases h

/-- A choice fails at the offset where one of its alternatives does. -/
theorem tryEach_fail {ps : List (Parser T)} {earlier : Option Failure}
    (h : tryEach earlier ps here = .fail failure stop) : failure.offset = here.offset ∨
      (∃ previous ∈ earlier, failure.offset = previous.offset) ∨
      ∃ p ∈ ps, ∃ other stop, p here = .fail other stop ∧ failure.offset = other.offset := by
  induction ps generalizing earlier with
  | nil =>
    cases earlier with
    | none =>
      cases h
      exact .inl rfl
    | some previous =>
      cases h
      exact .inr (.inl ⟨_, rfl, rfl⟩)
  | cons p ps ih =>
    rw [tryEach] at h
    cases run : p here with
    | ok value next =>
      simp only [run] at h
      cases h
    | exhausted =>
      simp only [run] at h
      cases h
    | fail other there =>
      simp only [run] at h
      split at h
      · cases h
        exact .inr (.inr ⟨p, by simp, _, _, run, rfl⟩)
      · obtain same | ⟨merged, hm, same⟩ | ⟨q, hq, later⟩ := ih h
        · exact .inl same
        · cases earlier with
          | none =>
            cases hm
            exact .inr (.inr ⟨p, by simp, _, _, run, same⟩)
          | some previous =>
            cases hm
            rw [Failure.merge_offset] at same
            exact .inr (.inl ⟨previous, rfl, same⟩)
        · exact .inr (.inr ⟨q, by simp [hq], later⟩)

theorem Settles.of_ok {stuck : List Char → Prop} {r : Reading T} {value : T}
    (h : p.Settles stuck r here) (run : p here = .ok value next) :
    (∃ n, next = here.advance n) ∧ r here.rest next.rest value := by
  rw [Settles, run] at h
  cases h with
  | ok n moved unique => exact ⟨⟨n, moved⟩, (unique _ _).2 ⟨rfl, rfl⟩⟩

/-- Where a parser goes on there was nothing else to be read. -/
theorem Settles.unique_of_ok {stuck : List Char → Prop} {r : Reading T} {value : T}
    (h : p.Settles stuck r here) (run : p here = .ok value next) :
    (∃ n, next = here.advance n) ∧ ∀ rest v, r here.rest rest v → rest = next.rest ∧ v = value := by
  rw [Settles, run] at h
  cases h with
  | ok n moved unique => exact ⟨⟨n, moved⟩, fun rest v => (unique rest v).1⟩

def rejection? : Except Failure T → Option Failure
  | .error failure => some failure
  | .ok _ => none

theorem eq_error {parsed : Except Failure T} (h : rejection? parsed = some failure) :
    parsed = .error failure := by
  cases parsed <;> cases h
  rfl

end Parser

end ParticlePatterns.Parsing
