import ParticlePatterns.Proofs.Parsing.Reading
import ParticlePatterns.Proofs.Parsing.Reads

/-!
# Parsers that settle a reading

A parser settles a reading where it finds the one rest and value there can be, or gives up
because there are none. It may also break off behind something it has read. A reading that
goes on differently from there must then end where it is stuck, so that whatever has to
follow it cannot be read. This passes through every combinator, and makes up for all that
parsers do not try again.
-/

set_option autoImplicit false

namespace ParticlePatterns.Parsing

variable {T U : Type} {stuck : List Char → Prop}

inductive Outcome.Settles (stuck : List Char → Prop) (r : Reading T) (here : Cursor) :
    Outcome T → Prop
  | ok {value : T} {there : Cursor} (n : Nat) : there = here.advance n →
      (∀ rest v, r here.rest rest v ↔ rest = there.rest ∧ v = value) →
      Settles stuck r here (.ok value there)
  | stops {failure : Failure} {stop : Cursor} : stop.offset = here.offset →
      (∀ rest v, ¬r here.rest rest v) → Settles stuck r here (.fail failure stop)
  | breaks {failure : Failure} {stop : Cursor} : here.offset < stop.offset →
      (∀ rest v, r here.rest rest v → stuck rest) → Settles stuck r here (.fail failure stop)

namespace Reading

def Keeps (stuck : List Char → Prop) (r : Reading T) : Prop :=
  ∀ here rest value, stuck here → r here rest value → stuck rest

theorem Keeps.map {r : Reading T} (h : r.Keeps stuck) (f : T → U) : (r.map f).Keeps stuck := by
  rintro here rest _ hs ⟨a, ha, _⟩
  exact h here rest a hs ha

theorem Keeps.bind {r : Reading T} {next : T → Reading U} (h : r.Keeps stuck)
    (hn : ∀ a, (next a).Keeps stuck) : (r.bind next).Keeps stuck := by
  rintro here rest value hs ⟨there, a, ha, hr⟩
  exact hn a there rest value (h here there a hs ha) hr

theorem Keeps.before {r : Reading T} {text : List Char} (h : r.Keeps stuck)
    (ht : ∀ rest, ¬stuck (text ++ rest)) : (r.before text).Keeps stuck :=
  fun here rest value hs hr => absurd (h here _ value hs hr) (ht rest)

theorem Keeps.either {r s : Reading T} (h : r.Keeps stuck) (hs : s.Keeps stuck) :
    (r.either s).Keeps stuck :=
  fun here rest value hh hr => hr.elim (h here rest value hh) (hs here rest value hh)

theorem keeps_after {text : List Char} (h : ∀ rest, ¬stuck (text ++ rest)) (r : Reading T) :
    (r.after text).Keeps stuck := by
  rintro _ rest value hs ⟨there, rfl, _⟩
  exact absurd hs (h there)

theorem keeps_greedy {r : Reading T} (h : ∀ here rest value, stuck here → ¬r here rest value) :
    Keeps stuck (Greedy r) := by
  intro here rest values hs hg
  obtain ⟨rfl, _⟩ := hg.of_none fun rest value => h here rest value hs
  exact hs

end Reading

/-- What comes behind a part that was read settles the whole. -/
theorem Outcome.Settles.shift {r s : Reading T} {here : Cursor} {n : Nat} {outcome : Outcome T}
    (h : outcome.Settles stuck s (here.advance n))
    (onward : ∀ rest v, r here.rest rest v ↔ s (here.advance n).rest rest v) :
    outcome.Settles stuck r here := by
  have passed := here.offset_le_advance n
  cases h with
  | ok m moved unique =>
    refine .ok (n + m) ?_ fun rest v => (onward rest v).trans (unique rest v)
    rw [moved, here.advance_add]
  | stops same nothing =>
    have nothing : ∀ rest v, ¬r here.rest rest v :=
      fun rest v hv => nothing rest v ((onward rest v).1 hv)
    obtain equal | later := passed.eq_or_lt
    · exact .stops (same.trans equal.symm) nothing
    · exact .breaks (same ▸ later) fun rest v hv => absurd hv (nothing rest v)
  | breaks later ends =>
    exact .breaks (passed.trans_lt later) fun rest v hv => ends rest v ((onward rest v).1 hv)

namespace Parser

def Settles (stuck : List Char → Prop) (p : Parser T) (r : Reading T) (here : Cursor) : Prop :=
  (p here).Settles stuck r here

variable {p : Parser T} {r s : Reading T} {here : Cursor}

theorem Settles.congr (h : p.Settles stuck r here)
    (hr : ∀ rest v, s here.rest rest v ↔ r here.rest rest v) : p.Settles stuck s here := by
  unfold Settles at h ⊢
  generalize p here = outcome at h
  cases h with
  | ok n moved unique => exact .ok n moved fun rest v => (hr rest v).trans (unique rest v)
  | stops same nothing => exact .stops same fun rest v hv => nothing rest v ((hr rest v).1 hv)
  | breaks later ends => exact .breaks later fun rest v hv => ends rest v ((hr rest v).1 hv)

theorem andThen_assoc {V : Type} (p : Parser T) (q : Parser U) (k : Parser V) :
    (p.andThen q).andThen k = p.andThen (q.andThen k) :=
  bind_assoc p _ _

theorem andThen_skip {V : Type} (p : Parser T) (q : Parser U) (k : Parser V) :
    (p.andThen q).skip k = p.andThen (q.skip k) :=
  bind_assoc p _ _

theorem settles_of_stops (h : p.Stops here.rest) (hr : ∀ rest v, ¬r here.rest rest v) :
    p.Settles stuck r here := by
  obtain ⟨failure, hf⟩ := h here rfl
  rw [Settles, hf]
  exact .stops rfl hr

theorem Settles.bind {q : T → Parser U} {next : T → Reading U} (hp : p.Settles stuck r here)
    (hq : ∀ a n, r here.rest (here.advance n).rest a →
      (q a).Settles stuck (next a) (here.advance n))
    (keeps : ∀ a, (next a).Keeps stuck) : (p.bind q).Settles stuck (r.bind next) here := by
  unfold Settles at hp ⊢
  rw [Parser.bind]
  cases first : p here with
  | exhausted =>
    rw [first] at hp
    cases hp
  | fail failure stop =>
    rw [first] at hp
    cases hp with
    | stops same nothing =>
      refine .stops same ?_
      rintro rest w ⟨there, a, ha, _⟩
      exact nothing there a ha
    | breaks later ends =>
      refine .breaks later ?_
      rintro rest w ⟨there, a, ha, hw⟩
      exact keeps a there rest w (ends there a ha) hw
  | ok a there =>
    rw [first] at hp
    cases hp with
    | ok n moved unique =>
      subst moved
      have made := (unique (here.advance n).rest a).2 ⟨rfl, rfl⟩
      have second := hq a n made
      -- the first part can only be read in one way
      have onward : ∀ rest w, r.bind next here.rest rest w ↔
          next a (here.advance n).rest rest w := by
        intro rest w
        constructor
        · rintro ⟨there, b, hb, hw⟩
          obtain ⟨rfl, rfl⟩ := (unique there b).1 hb
          exact hw
        · exact fun hw => ⟨_, a, made, hw⟩
      show Outcome.Settles stuck (r.bind next) here (q a (here.advance n))
      exact second.shift onward

theorem Settles.map (h : p.Settles stuck r here) (f : T → U) :
    (p.map f).Settles stuck (r.map f) here := by
  unfold Settles at h ⊢
  rw [Parser.map, Parser.bind]
  generalize p here = outcome at h
  cases h with
  | @ok value there n moved unique =>
    refine .ok n moved fun rest v => ?_
    constructor
    · rintro ⟨a, ha, rfl⟩
      obtain ⟨rfl, rfl⟩ := (unique rest a).1 ha
      exact ⟨rfl, rfl⟩
    · rintro ⟨rfl, rfl⟩
      exact ⟨value, (unique _ _).2 ⟨rfl, rfl⟩, rfl⟩
  | stops same nothing =>
    refine .stops same ?_
    rintro rest _ ⟨a, ha, _⟩
    exact nothing rest a ha
  | breaks later ends =>
    refine .breaks later ?_
    rintro rest _ ⟨a, ha, _⟩
    exact ends rest a ha

theorem Settles.label (h : p.Settles stuck r here) (expected : String) :
    (p.label expected).Settles stuck r here := by
  unfold Settles at h ⊢
  rw [Parser.label]
  generalize p here = outcome at h
  cases h with
  | ok n moved unique => exact .ok n moved unique
  | stops same nothing =>
    show Outcome.Settles _ _ _ (if _ then _ else _)
    rw [if_pos same]
    exact .stops same nothing
  | breaks later ends =>
    show Outcome.Settles _ _ _ (if _ then _ else _)
    rw [if_neg later.ne']
    exact .breaks later ends

/-! An alternative that does not stop must leave nothing to the later ones. -/

theorem settles_tryEach_nil (earlier : Option Failure) :
    (tryEach earlier ([] : List (Parser T))).Settles stuck (fun _ _ _ => False) here :=
  .stops rfl fun _ _ h => h

theorem Settles.tryEach_cons {alternatives : List (Parser T)} (hp : p.Settles stuck r here)
    (hs : ∀ earlier, (tryEach earlier alternatives).Settles stuck s here)
    (apart : ∀ rest v, s here.rest rest v → p.Stops here.rest) (earlier : Option Failure) :
    (tryEach earlier (p :: alternatives)).Settles stuck (r.either s) here := by
  have alone : ∀ {outcome}, p here = outcome → (∀ failure, outcome ≠ .fail failure here) →
      ∀ rest v, ¬s here.rest rest v := by
    intro outcome found moved rest v hv
    obtain ⟨failure, hf⟩ := apart rest v hv here rfl
    exact moved failure (found.symm.trans hf)
  unfold Settles at hp
  rw [Settles]
  cases found : p here with
  | exhausted =>
    rw [found] at hp
    cases hp
  | ok value there =>
    rw [found] at hp
    cases hp with
    | ok n moved unique =>
      have alone := alone found (by simp)
      simp only [tryEach, found]
      exact .ok n moved fun rest v => (or_iff_left (alone rest v)).trans (unique rest v)
  | fail failure stop =>
    rw [found] at hp
    cases hp with
    | stops same nothing =>
      simp only [tryEach, found, same, ne_eq, not_true, if_false]
      exact Settles.congr (hs _) fun rest v => or_iff_right (nothing rest v)
    | breaks later ends =>
      have alone := alone found (by rintro _ ⟨⟩; exact lt_irrefl _ later)
      simp only [tryEach, found, ne_eq, later.ne', not_false_eq_true, if_true]
      exact .breaks later fun rest v hv => ends rest v (hv.resolve_right (alone rest v))

theorem Settles.tryEach_last (hp : p.Settles stuck r here) (earlier : Option Failure) :
    (tryEach earlier [p]).Settles stuck r here := by
  have alone := hp.tryEach_cons (fun _ => settles_tryEach_nil _) (fun _ _ h => h.elim) earlier
  exact alone.congr fun rest v => (or_iff_left id).symm

structure Alternatives (stuck : List Char → Prop) (here : Cursor) (alternatives : List (Parser T))
    (r : Reading T) (heads : Char → Prop) : Prop where
  settles : ∀ earlier, (tryEach earlier alternatives).Settles stuck r here
  starts : r.Starts heads

theorem Alternatives.last {heads : Char → Prop} (hp : p.Settles stuck r here)
    (hr : r.Starts heads) : Alternatives stuck here [p] r heads :=
  ⟨hp.tryEach_last, hr⟩

theorem Alternatives.cons {alternatives : List (Parser T)} {heads others : Char → Prop}
    (hp : p.Settles stuck r here) (hr : r.Starts heads)
    (h : Alternatives stuck here alternatives s others)
    (apart : (∀ c ∈ here.rest.head?, others c) → p.Stops here.rest) :
    Alternatives stuck here (p :: alternatives) (r.either s) fun c => heads c ∨ others c :=
  ⟨hp.tryEach_cons h.settles fun _ _ hv => apart (h.starts.head hv), hr.either h.starts⟩

theorem exists_of_not_stops {text : String} {here : List Char} (h : ¬(string text).Stops here) :
    ∃ rest, here = text.toList ++ rest := by
  by_contra other
  refine h (string_stops (Bool.eq_false_iff.2 fun found => other ?_))
  obtain ⟨rest, hr⟩ := List.isPrefixOf_iff_prefix.1 found
  exact ⟨rest, hr.symm⟩

theorem settles_string (text : String) : (string text).Settles stuck
    (fun here rest v => here = text.toList ++ rest ∧ v = text) here := by
  by_cases found : text.toList.isPrefixOf here.rest = true
  · obtain ⟨rest, hr⟩ := List.isPrefixOf_iff_prefix.1 found
    rw [Settles, reads_string text rest here hr.symm]
    refine .ok _ rfl fun after v => ?_
    rw [Cursor.advance_rest, ← hr, List.drop_left, List.append_cancel_left_eq]
    exact and_congr_left' eq_comm
  · refine settles_of_stops (string_stops (Bool.eq_false_iff.2 found)) ?_
    rintro rest _ ⟨hr, _⟩
    exact found (List.isPrefixOf_iff_prefix.2 ⟨rest, hr.symm⟩)

theorem Settles.after_string (text : String) {q : Parser U} {t : Reading U}
    (hq : ∀ there : Cursor, here.rest = text.toList ++ there.rest → q.Settles stuck t there)
    (keeps : t.Keeps stuck) :
    ((string text).andThen q).Settles stuck (t.after text.toList) here := by
  have both : ((string text).bind fun _ => q).Settles stuck (Reading.bind _ fun _ => t) here :=
    (settles_string text).bind (fun _ n h => hq _ h.1) fun _ => keeps
  refine both.congr fun rest v => ⟨?_, ?_⟩
  · rintro ⟨there, split, h⟩
    exact ⟨there, text, ⟨split, rfl⟩, h⟩
  · rintro ⟨there, _, ⟨split, _⟩, h⟩
    exact ⟨there, split, h⟩

theorem Settles.skip_string (hp : p.Settles stuck r here) (text : String)
    (ht : ∀ rest, ¬stuck (text.toList ++ rest)) :
    (p.skip (string text)).Settles stuck (r.before text.toList) here := by
  have both := hp.bind (q := fun v => (string text).map fun _ => v)
    (fun _ n _ => (settles_string text).map _)
    fun _ => Reading.Keeps.map (by rintro _ rest _ hs ⟨rfl, _⟩; exact absurd hs (ht rest)) _
  refine both.congr fun rest v => ⟨fun h => ⟨_, v, h, text, ⟨rfl, rfl⟩, rfl⟩, ?_⟩
  rintro ⟨_, _, h, _, ⟨rfl, _⟩, rfl⟩
  exact h

theorem settles_pattern (token : Recogniser) (expected : String) :
    (pattern token expected).Settles stuck (fun here rest v => ∃ n, token here = some n ∧
      rest = here.drop n ∧ v = String.ofList (here.take n)) here := by
  rw [Settles, pattern]
  cases found : token here.rest with
  | none => exact .stops rfl (by simp [found])
  | some n =>
    refine .ok n rfl fun rest v => ?_
    rw [found, Cursor.advance_rest]
    simp

theorem settles_eof : eof.Settles stuck (fun here rest _ => here = [] ∧ rest = []) here := by
  rw [Settles, eof]
  by_cases ended : here.rest = []
  · rw [if_pos (here.atEnd_iff.2 ended)]
    refine .ok 0 rfl fun rest v => ?_
    simp [ended]
  · rw [if_neg (here.atEnd_iff.not.2 ended)]
    exact .stops rfl fun rest v hv => ended hv.1

theorem Settles.skip_eof (hp : p.Settles stuck r here) (hs : ¬stuck []) :
    (p.skip eof).Settles stuck (fun here rest v => r here [] v ∧ rest = []) here := by
  have both := hp.bind (q := fun v => eof.map fun _ => v) (fun _ _ _ => settles_eof.map _)
    fun _ => Reading.Keeps.map (by rintro _ rest _ hh ⟨rfl, _⟩; exact absurd hh hs) _
  refine both.congr fun rest v => ⟨?_, ?_⟩
  · rintro ⟨read, rfl⟩
    exact ⟨[], v, read, (), ⟨rfl, rfl⟩, rfl⟩
  · rintro ⟨_, _, read, _, ⟨rfl, rfl⟩, rfl⟩
    exact ⟨read, rfl⟩

/-- What can be repeated, up to some length of the text. Items that break off either lead to
where a reading is stuck, or are stuck themselves; and from there none starts. -/
structure Repeats (stuck : List Char → Prop) (p : Parser T) (r : Reading T) (length : Nat) :
    Prop where
  shrinks : r.Shrinks
  settles : ∀ here : Cursor, here.rest.length < length → p.Settles stuck r here
  none_of_stuck : ∀ here rest v, stuck here → ¬r here rest v
  stuck_of_none : ∀ here : List Char, here.length < length → (∀ rest v, ¬r here rest v) →
    ¬p.Stops here → stuck here

theorem Repeats.keeps_item {length : Nat} (h : Repeats stuck p r length) : r.Keeps stuck :=
  fun here rest v hs hr => absurd hr (h.none_of_stuck here rest v hs)

theorem Repeats.many {length : Nat} (h : Repeats stuck p r length)
    (hl : here.rest.length < length) : (many p).Settles stuck (Greedy r) here := by
  suffices all : ∀ limit (there : Cursor), there.rest.length < length →
      there.rest.length < limit → (repeatUpTo p limit).Settles stuck (Greedy r) there from
    all _ here hl (Nat.lt_succ_self _)
  intro limit
  induction limit with
  | zero => exact fun there _ hl => absurd hl (Nat.not_lt_zero _)
  | succ limit ih =>
    intro there within room
    have item := h.settles there within
    unfold Settles at item
    cases outcome : p there with
    | exhausted =>
      rw [outcome] at item
      cases item
    | fail failure stop =>
      rw [outcome] at item
      cases item with
      | stops same nothing =>
        rw [Settles]
        simp only [repeatUpTo, outcome, same, ne_eq, not_true, if_false]
        refine .ok 0 rfl fun rest values => ⟨Greedy.of_none nothing, ?_⟩
        rintro ⟨rfl, rfl⟩
        exact .stop nothing
      | breaks later ends =>
        rw [Settles]
        simp only [repeatUpTo, outcome, ne_eq, later.ne', not_false_eq_true, if_true]
        refine .breaks later fun rest values hg => ?_
        cases hg with
        | stop nothing =>
          refine h.stuck_of_none there.rest within nothing fun stops => ?_
          obtain ⟨other, ho⟩ := stops there rfl
          rw [outcome] at ho
          cases ho
          exact absurd rfl later.ne
        | more first rest =>
          obtain ⟨rfl, _⟩ := rest.of_none fun rest v => h.none_of_stuck _ rest v (ends _ _ first)
          exact ends _ _ first
    | ok value next =>
      rw [outcome] at item
      cases item with
      | ok n moved unique =>
        have first := (unique next.rest value).2 ⟨rfl, rfl⟩
        have shorter := h.shrinks _ _ _ first
        subst moved
        have passed : there.offset < (there.advance n).offset := by
          refine there.offset_lt_advance (Nat.pos_of_ne_zero ?_) ?_
          · rintro rfl
            exact absurd shorter (lt_irrefl _)
          · intro ended
            simp [ended] at shorter
        have later := (ih (there.advance n) (by omega) (by omega)).map (value :: ·)
        rw [Settles]
        simp only [repeatUpTo, outcome, passed.ne', if_false]
        refine Outcome.Settles.shift later fun rest values => ⟨fun hg => ?_, ?_⟩
        · cases hg with
          | stop nothing => exact absurd first (nothing _ _)
          | more other hg =>
            obtain ⟨rfl, rfl⟩ := (unique _ _).1 other
            exact ⟨_, hg, rfl⟩
        · rintro ⟨values, hg, rfl⟩
          exact .more first hg

theorem Repeats.keeps {length : Nat} (h : Repeats stuck p r length) :
    Reading.Keeps stuck (Greedy r) :=
  Reading.keeps_greedy h.none_of_stuck

theorem Repeats.many1 {length : Nat} (h : Repeats stuck p r length)
    (hl : here.rest.length < length) :
    (many1 p).Settles stuck (fun here rest vs => Greedy r here rest vs ∧ vs ≠ []) here := by
  have both := (h.settles here hl).bind (q := fun v => (Parser.many p).map (v :: ·))
    (fun v n read => by
      have shorter := h.shrinks _ _ _ read
      exact (h.many (shorter.trans hl)).map _)
    fun v => h.keeps.map _
  refine both.congr fun rest vs => ⟨?_, ?_⟩
  · rintro ⟨hg, some⟩
    cases hg with
    | stop _ => exact absurd rfl some
    | more first later => exact ⟨_, _, first, _, later, rfl⟩
  · rintro ⟨there, v, first, vs, later, rfl⟩
    exact ⟨.more first later, by simp⟩

theorem parse_eq_ok_iff {text : String} (h : p.Settles stuck r (Cursor.ofText text.toList))
    (free : ∀ rest v, r text.toList rest v → ¬stuck rest) {value : T} :
    p.parse text = .ok value ↔ ∃ rest, r text.toList rest value := by
  unfold Settles at h
  cases found : p (Cursor.ofText text.toList) with
  | exhausted =>
    rw [found] at h
    cases h
  | ok v there =>
    rw [found] at h
    cases h with
    | ok n moved unique =>
      simp only [parse, found, Except.ok.injEq]
      constructor
      · rintro rfl
        exact ⟨there.rest, (unique _ _).2 ⟨rfl, rfl⟩⟩
      · rintro ⟨rest, hr⟩
        exact ((unique _ _).1 hr).2.symm
  | fail failure stop =>
    rw [found] at h
    have nothing : ∀ rest v, ¬r text.toList rest v := by
      cases h with
      | stops same nothing => exact nothing
      | breaks later ends => exact fun rest v hv => free rest v hv (ends rest v hv)
    simpa [parse, found] using fun rest => nothing rest value

end Parser

end ParticlePatterns.Parsing
