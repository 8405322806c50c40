import ParticlePatterns.Proofs.Parsing.Onward

/-!
# Repetitions that end

A repetition runs its item at one place after the other. Every run but the last has read
something, so there are no more runs than bytes that are left, and one; and where there is no
further run, the last one either gave up or read nothing. That much is true of every item that
ends and never goes back.
-/

set_option autoImplicit false

namespace ParticlePatterns.Parsing

namespace Parser

variable {T : Type} {p : Parser T} {here there next : Cursor} {value : T}

inductive Loop (p : Parser T) : Cursor → List Cursor → Outcome (List T) → Prop
  | balks {here stop : Cursor} {failure : Failure} : p here = .fail failure stop →
      stop.offset = here.offset → Loop p here [here] (.ok [] here)
  | breaks {here stop : Cursor} {failure : Failure} : p here = .fail failure stop →
      stop.offset ≠ here.offset → Loop p here [here] (.fail failure stop)
  | idles {here there : Cursor} {value : T} : p here = .ok value there →
      there.offset = here.offset → Loop p here [here] (.ok [value] there)
  | goes {here there : Cursor} {value : T} {places : List Cursor} {outcome : Outcome (List T)} :
      p here = .ok value there → there.offset ≠ here.offset → Loop p there places outcome →
      Loop p here (here :: places) (outcome.map (value :: ·))

def kept? (p : Parser T) (place : Cursor) : Option T :=
  match p place with
  | .ok value _ => some value
  | .fail _ _ => none
  | .exhausted => none

def visits (p : Parser T) : Nat → Cursor → List Cursor
  | 0, _ => []
  | limit + 1, here => here :: match p here with
    | .ok _ there => if there.offset = here.offset then [] else visits p limit there
    | .fail _ _ => []
    | .exhausted => []

namespace Loop

variable {places places' : List Cursor} {outcome outcome' : Outcome (List T)}

theorem ne_exhausted (h : Loop p here places outcome) : outcome ≠ .exhausted := by
  induction h with
  | balks | breaks | idles => nofun
  | goes _ _ _ ih => exact Outcome.ne_exhausted_of_stop? (Outcome.stop?_map _ _) ih

theorem ne_nil (h : Loop p here places outcome) : places ≠ [] := by
  cases h <;> exact List.cons_ne_nil _ _

/-- All runs but the last read something. -/
theorem moves (hf : p.Forward) (h : Loop p here places outcome) :
    ∀ place ∈ places.dropLast, ∃ value next, p place = .ok value next ∧
      place.offset < next.offset := by
  induction h with
  | balks | breaks | idles => simp
  | goes run moved later ih =>
    rw [List.dropLast_cons_of_ne_nil later.ne_nil]
    refine List.forall_mem_cons.2 ⟨⟨_, _, run, ?_⟩, ih⟩
    exact (hf _ _ _ run).offset_le.lt_of_ne' moved

theorem length_le (hf : p.Forward) (h : Loop p here places outcome) :
    places.length ≤ bytesOf here.rest + 1 := by
  induction h with
  | balks | breaks | idles => simp
  | goes run moved _ ih =>
    have bytes := (hf _ _ _ run).bytes
    have later := (hf _ _ _ run).offset_le.lt_of_ne' moved
    rw [List.length_cons]
    omega

/-- A repetition that succeeds keeps what its runs have read. -/
theorem kept {values : List T} (h : Loop p here places (.ok values next)) :
    values = places.filterMap p.kept? := by
  generalize same : Outcome.ok values next = outcome at h
  induction h generalizing values with
  | balks run =>
    cases same
    simp [kept?, run]
  | breaks => cases same
  | idles run =>
    cases same
    simp [kept?, run]
  | @goes _ _ _ _ outcome run _ _ ih =>
    cases outcome with
    | ok later stop =>
      cases same
      rw [List.filterMap_cons]
      simp [kept?, run, ← ih rfl]
    | fail => cases same
    | exhausted => cases same

/-- A limit that is no less than the number of runs does not show. -/
theorem eq_of_limit (h : Loop p here places outcome) {limit : Nat} (hl : places.length ≤ limit) :
    visits p limit here = places ∧ repeatUpTo p limit here = outcome := by
  induction h generalizing limit with
  | balks run same | breaks run same | idles run same =>
    obtain ⟨limit, rfl⟩ := Nat.exists_eq_add_of_le' hl
    simp [visits, repeatUpTo, run, same]
  | goes run moved _ ih =>
    obtain ⟨limit, rfl⟩ : ∃ n, limit = n + 1 := ⟨limit - 1, by simp at hl; omega⟩
    obtain ⟨later, came⟩ := ih (Nat.le_of_succ_le_succ hl)
    simp [visits, repeatUpTo, run, moved, map_apply, later, came]

theorem unique (h : Loop p here places outcome) (h' : Loop p here places' outcome') :
    places' = places ∧ outcome' = outcome := by
  obtain ⟨visited, came⟩ := h.eq_of_limit (Nat.le_max_left _ places'.length)
  obtain ⟨visited', came'⟩ := h'.eq_of_limit (Nat.le_max_right places.length _)
  exact ⟨visited'.symm.trans visited, came'.symm.trans came⟩

end Loop

/-- The limit of a repetition is never in its way. -/
theorem loop_repeatUpTo {length limit : Nat} (he : p.HaltsBelow length) (hf : p.Forward)
    (hn : here.rest.length < length) (hl : here.rest.length < limit) :
    Loop p here (visits p limit here) (repeatUpTo p limit here) := by
  induction limit generalizing here with
  | zero => omega
  | succ limit ih =>
    rw [visits, repeatUpTo]
    cases run : p here with
    | exhausted => exact absurd run (he here hn)
    | fail failure stop =>
      by_cases same : stop.offset = here.offset
      · simpa [run, same] using Loop.balks run same
      · simpa [run, same] using Loop.breaks run same
    | ok value there =>
      by_cases same : there.offset = here.offset
      · simpa [run, same] using Loop.idles run same
      · have reached := hf here value there run
        have shorter := reached.length_lt (reached.offset_le.lt_of_ne' same)
        simpa [run, same, map_apply] using
          Loop.goes run same (ih (by omega) (by omega))

/-- A repetition that starts here ends, in one way, after no more runs than there are bytes
left, and one. What all of these but the last have read is kept, and so is that of the last,
unless it gave up. -/
structure LoopEnds (p : Parser T) (here : Cursor) (outcome : Outcome (List T))
    (places : List Cursor) : Prop where
  ends : outcome ≠ .exhausted
  loop : Loop p here places outcome
  unique : ∀ places' outcome', Loop p here places' outcome' → places' = places ∧ outcome' = outcome
  count : places.length ≤ bytesOf here.rest + 1
  moves : ∀ place ∈ places.dropLast, ∃ value next, p place = .ok value next ∧
    place.offset < next.offset
  kept : ∀ values next, outcome = .ok values next → values = places.filterMap p.kept?

theorem loopEnds_many (he : p.Halts) (hf : p.Forward) (here : Cursor) :
    ∃ places, LoopEnds p here (many p here) places := by
  have loop := loop_repeatUpTo (fun there _ => he there) hf (Nat.lt_succ_self here.rest.length)
    (Nat.lt_succ_self here.rest.length)
  refine ⟨_, loop.ne_exhausted, loop, fun _ _ => loop.unique, loop.length_le hf, loop.moves hf, ?_⟩
  intro values next came
  rw [many] at came
  rw [came] at loop
  exact loop.kept

theorem haltsBelow_many {length : Nat} (he : p.HaltsBelow length) (hf : p.Forward) :
    (many p).HaltsBelow length :=
  fun here hn => (loop_repeatUpTo he hf hn (Nat.lt_succ_self here.rest.length)).ne_exhausted

theorem many1_of_ok (run : p here = .ok value there) :
    many1 p here = (many p there).map (value :: ·) := by
  unfold many1 Parser.bind
  rw [run]
  exact map_apply _ _ there

theorem halts_many1 (he : p.Halts) (hf : p.Forward) : (many1 p).Halts := by
  intro here
  cases run : p here with
  | ok value there =>
    obtain ⟨_, loop⟩ := loopEnds_many he hf there
    rw [many1_of_ok run]
    exact Outcome.ne_exhausted_of_stop? (Outcome.stop?_map _ _) loop.ends
  | fail failure stop =>
    unfold many1 Parser.bind
    rw [run]
    nofun
  | exhausted => exact absurd run (he here)

end Parser

end ParticlePatterns.Parsing
