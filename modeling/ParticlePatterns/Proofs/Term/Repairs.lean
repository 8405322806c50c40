import ParticlePatterns.Proofs.Parsing.Runs
import ParticlePatterns.Proofs.Term.Acceptance
import ParticlePatterns.Proofs.Term.CutRules

/-!
# Repairs

`Opens` says of the text from a cursor up to some offset that it is the start of something: cut
there and gone on with in a fixed way, it is read in front of whatever of a kind comes behind.
Repetitions keep this, from where they start up to where they fail or end. What fails in the
midst of an item is repaired as that item is; elsewhere the new line of the cut is filler.
-/

set_option autoImplicit false

namespace ParticlePatterns.Grammar

open Parsing (Cursor Cut Failure Greedy Outcome Reading bytesOf)
open Parsing.Parser
open Token (Blank LineBlank)

section Openings

variable {T U : Type}

def Opens (ends : List Char → Prop) (r : Reading T) (here : Cursor) (offset : Nat) : Prop :=
  ∃ taken lost repair, here.rest = taken ++ lost ∧ offset = here.offset + bytesOf taken ∧
    ∀ after, ends after → ∃ line value, repair ++ after = '\n' :: line ∧
      r (taken ++ '\n' :: line) after value

variable {ends others : List Char → Prop} {r : Reading T} {s : Reading U} {here next : Cursor}
  {offset : Nat}

theorem opens_here (repair : List Char)
    (h : ∀ after, ends after → ∃ line value, repair ++ after = '\n' :: line ∧
      r ('\n' :: line) after value) : Opens ends r here here.offset :=
  ⟨[], here.rest, repair, rfl, rfl, h⟩

theorem Opens.mono (h : Opens ends r here offset) (he : ∀ after, others after → ends after)
    (hr : ∀ {here after v}, others after → r here after v → ∃ u, s here after u) :
    Opens others s here offset := by
  obtain ⟨taken, lost, repair, split, size, h⟩ := h
  refine ⟨taken, lost, repair, split, size, fun after ha => ?_⟩
  obtain ⟨line, v, same, read⟩ := h after (he after ha)
  obtain ⟨u, read⟩ := hr ha read
  exact ⟨line, u, same, read⟩

/-- With a fixed text behind it. -/
theorem Opens.closed (h : Opens ends r here offset) (text : List Char)
    (he : ∀ after, others after → ends (text ++ after)) :
    Opens others (r.before text) here offset := by
  obtain ⟨taken, lost, repair, split, size, h⟩ := h
  refine ⟨taken, lost, repair ++ text, split, size, fun after ha => ?_⟩
  rw [List.append_assoc]
  exact h _ (he after ha)

/-- From an earlier place, if what lies between is read as before once the text is cut. -/
theorem Opens.shift {text : List Char} (h : Opens ends r next offset)
    (split : here.rest = text ++ next.rest) (size : next.offset = here.offset + bytesOf text)
    (carry : ∀ {lost line there after v}, (offset = next.offset → next.rest = lost) →
      Cut lost line next.rest there → r there after v →
      ∃ here' u, Cut lost line here.rest here' ∧ s here' after u) :
    Opens ends s here offset := by
  obtain ⟨taken, lost, repair, split', size', h⟩ := h
  have reached : offset = here.offset + bytesOf (text ++ taken) := by
    rw [Parsing.bytesOf_append]
    omega
  refine ⟨text ++ taken, lost, repair, by rw [split, split', List.append_assoc], reached,
    fun after ha => ?_⟩
  obtain ⟨line, v, same, read⟩ := h after ha
  have unmoved : offset = next.offset → next.rest = lost := by
    intro equal
    have nothing : taken = [] := Parsing.eq_nil_of_bytesOf (by omega)
    rw [split', nothing, List.nil_append]
  obtain ⟨here', u, cut, read⟩ := carry unmoved ⟨taken, split', rfl⟩ read
  have whole : Cut lost line here.rest ((text ++ taken) ++ '\n' :: line) :=
    ⟨text ++ taken, by rw [split, split', List.append_assoc], rfl⟩
  exact ⟨line, u, same, cut.unique whole ▸ read⟩

/-- From in front of a mark. -/
theorem Opens.marked {text : List Char} (h : Opens ends r next offset)
    (split : here.rest = text ++ next.rest) (size : next.offset = here.offset + bytesOf text)
    (hs : ∀ {there after v}, r there after v → ∃ u, s (text ++ there) after u) :
    Opens ends s here offset := by
  refine h.shift split size fun _ cut read => ?_
  obtain ⟨u, read⟩ := hs read
  exact ⟨_, u, split ▸ cut.append text, read⟩

def Line (after : List Char) : Prop :=
  ∃ rest, after = '\n' :: rest

def Mends (r : Reading T) (p : Parsing.Parser T) (here : Cursor) : Prop :=
  ∀ failure stop, p here = .fail failure stop →
    failure.offset = here.offset ∨ Opens Line r here failure.offset

end Openings

variable {ν T : Type} [Numeral ν]

structure Filling (fp : Parsing.Parser String) (fill : List Char → List Char → Prop)
    (ends : List Char → Prop) (gap : List Char) : Prop where
  skips : Skips fp fill
  onward : ∀ {lost line here rest rest' last}, fill here rest → Cut lost line rest rest' →
    fill rest' last → ∃ here', Cut lost line here here' ∧ fill here' last
  closes : ∀ after, ends after → (∃ line, gap ++ after = '\n' :: line) ∧
    fill (gap ++ after) after ∧ ∀ c ∈ after.head?, startsTerm c = false

theorem filling_blank : Filling filler Blank Clear ['\n'] := by
  refine ⟨skips_filler, fun filled cut more => filled.onward cut more, fun after clear => ?_⟩
  exact ⟨⟨after, rfl⟩, blank_newline fun c hc => (clear c hc).1, fun c hc => (clear c hc).2⟩

theorem filling_line : Filling lineFiller LineBlank Line [] := by
  refine ⟨skips_lineFiller, ?_, ?_⟩
  · rintro lost line here rest rest' last ⟨pieces, filled⟩ cut ⟨further, more⟩
    obtain ⟨here', cut, whole⟩ := filled.onward Parsing.Piece.survives cut more
    exact ⟨here', cut, _, whole⟩
  · rintro _ ⟨rest, rfl⟩
    exact ⟨⟨rest, rfl⟩, lineBlank_newline rest, by simp +decide⟩

section Fillers

variable {fp : Parsing.Parser String} {fill : List Char → List Char → Prop} {here next : Cursor}

/-- Filler never gets stuck. -/
theorem Skips.settled (h : Skips fp fill) (here : Cursor) : fp.Settles (fun _ => False)
    (fun (here rest : List Char) (v : String) => fill here rest ∧ here = v.toList ++ rest) here :=
  h.settles here

theorem Skips.not_fail (h : Skips fp fill) (failure : Failure) (stop : Cursor) :
    fp here ≠ .fail failure stop := by
  intro run
  obtain ⟨rest, filled⟩ := h.total here.rest
  obtain ⟨text, split⟩ := h.suffix _ _ filled
  have read : fill here.rest rest ∧ here.rest = (String.ofList text).toList ++ rest :=
    ⟨filled, by simpa using split⟩
  have settled := h.settled here
  rw [Parsing.Parser.Settles, run] at settled
  cases settled with
  | stops _ nothing => exact nothing _ _ read
  | breaks _ ends => exact ends _ _ read

theorem Skips.of_ok (h : Skips fp fill) {text : String} (run : fp here = .ok text next) :
    (∃ n, next = here.advance n) ∧ fill here.rest next.rest := by
  obtain ⟨moved, filled, _⟩ := (h.settled here).of_ok run
  exact ⟨moved, filled⟩

theorem Skips.self (h : Skips fp fill) {text : List Char} {c : Char} (hc : c ∈ text.head?)
    (starts : startsTerm c = true) : fill text text := by
  obtain ⟨tail, rfl⟩ := List.head?_eq_some_iff.1 hc
  obtain ⟨rest, filled⟩ := h.total (c :: tail)
  rwa [h.clear c tail rest starts filled] at filled

theorem opens_led {ends : List Char → Prop} {gap : List Char} (hf : Filling fp fill ends gap)
    {text : String} {r : Reading T} {offset : Nat} {kinds : List Char → Prop}
    (run : fp here = .ok text next) (h : Opens kinds (Led fill r) next offset) :
    Opens kinds (Led fill r) here offset := by
  obtain ⟨⟨n, rfl⟩, filled⟩ := hf.skips.of_ok run
  obtain ⟨passed, split, size⟩ := here.advance_passes n
  refine h.shift split size fun _ cut read => ?_
  obtain ⟨start, gap, read⟩ := read
  obtain ⟨here', cut, gap⟩ := hf.onward filled cut gap
  exact ⟨here', _, cut, start, gap, read⟩

end Fillers

/-- Several that can be repaired where they fail, and are read again where something behind them
is cut, unless that is the filler before an item that would balk. -/
structure Repairable (ν : Type) [Numeral ν] (p : Parsing.Parser T) (fp : Parsing.Parser String)
    (fill : List Char → List Char → Prop) (r : Reading T) (n : Nat) : Prop where
  repeats : Repeats (Stuck ν) p r n
  starts : r.Starts (startsTerm · = true)
  mends : ∀ here : Cursor, here.rest.length < n → Mends r p here
  links : ∀ {here next value there lost line there'}, here.rest.length < n →
    (p.skip fp) here = .ok value next → r here.rest there value → fill there next.rest →
    Cut lost line there there' → next.rest = lost ∨ ¬(p.skip fp).Balks next →
    ∃ here', Cut lost line here.rest here' ∧ r here' there' value

section Chains

variable {p : Parsing.Parser T} {fp : Parsing.Parser String}
  {fill : List Char → List Char → Prop} {ends : List Char → Prop} {gap : List Char}
  {r : Reading T} {n : Nat} {here next : Cursor}

theorem Several.led (hs : Skips fp fill) (hr : r.Starts (startsTerm · = true))
    {here rest : List Char} {values : List T} (h : Several fill r here rest values) :
    Led fill (Greedy (Padded fill r)) here rest values := by
  obtain ⟨items, some⟩ := h
  cases items with
  | stop _ => exact absurd rfl some
  | more first later =>
    obtain ⟨there, read, filled⟩ := first
    obtain ⟨c, tail, rfl, starts⟩ := hr _ _ _ read
    exact ⟨_, hs.self (c := c) rfl starts, .more ⟨there, read, filled⟩ later⟩

theorem Filling.none (hf : Filling fp fill ends gap) (hr : r.Starts (startsTerm · = true))
    {after : List Char} (ha : ends after) (rest : List Char) (value : T) :
    ¬Padded fill r after rest value := by
  rintro ⟨there, read, _⟩
  obtain ⟨c, tail, rfl, starts⟩ := hr _ _ _ read
  exact absurd starts (by simp [(hf.closes _ ha).2.2 c rfl])

/-- The gap alone, without any items. -/
theorem Filling.opens_here (hf : Filling fp fill ends gap)
    (hr : r.Starts (startsTerm · = true)) :
    Opens ends (Led fill (Greedy (Padded fill r))) here here.offset := by
  refine Grammar.opens_here gap fun after ha => ?_
  obtain ⟨⟨line, same⟩, filled, _⟩ := hf.closes after ha
  exact ⟨line, [], same, after, same ▸ filled, .stop (hf.none hr ha)⟩

/-- An item that is repaired, and then the gap. -/
theorem Filling.opens_padded (hf : Filling fp fill ends gap) {offset : Nat}
    (h : Opens Line r here offset) : Opens ends (Padded fill r) here offset := by
  obtain ⟨taken, lost, repair, split, size, h⟩ := h
  refine ⟨taken, lost, repair ++ gap, split, size, fun after ha => ?_⟩
  obtain ⟨⟨rest, same⟩, filled, _⟩ := hf.closes after ha
  obtain ⟨line, value, equal, read⟩ := h ('\n' :: rest) ⟨rest, rfl⟩
  exact ⟨line, value, by rw [List.append_assoc, same, equal], _, read, same ▸ filled⟩

theorem Filling.opens_item (hf : Filling fp fill ends gap)
    (hr : r.Starts (startsTerm · = true)) {offset : Nat} (h : Opens Line r here offset) :
    Opens ends (Several fill r) here offset :=
  (hf.opens_padded h).mono (fun _ => id) fun ha read =>
    ⟨[_], .more read (.stop (hf.none hr ha)), by simp⟩

variable (hf : Filling fp fill ends gap) (hi : Repairable ν p fp fill r n)

include hf hi

theorem Repairable.of_ok (hl : here.rest.length < n) {value : T}
    (run : (p.skip fp) here = .ok value next) :
    (∃ m, next = here.advance m) ∧ Padded fill r here.rest next.rest value :=
  ((hf.skips.repeats hi.repeats).settles here hl).of_ok run

/-- The last item, and then the gap. -/
theorem Repairable.opens_last (hl : here.rest.length < n) {value : T}
    (run : (p.skip fp) here = .ok value next) : Opens ends (Padded fill r) here next.offset := by
  obtain ⟨⟨m, rfl⟩, there, read, filled⟩ := hi.of_ok hf hl run
  obtain ⟨passed, split, size⟩ := here.advance_passes m
  have closes : Opens ends (fun a b (_ : Unit) => fill a b) (here.advance m)
      (here.advance m).offset := by
    refine Grammar.opens_here gap fun after ha => ?_
    obtain ⟨⟨line, same⟩, filled, _⟩ := hf.closes after ha
    exact ⟨line, (), same, same ▸ filled⟩
  refine closes.shift split size fun unmoved cut gap => ?_
  obtain ⟨there', cut, filled'⟩ := hf.onward filled cut gap
  obtain ⟨here', cut, read'⟩ := hi.links hl run read filled cut (.inl (unmoved rfl))
  exact ⟨here', value, cut, there', read', filled'⟩

/-- One more item in front of what was repaired. -/
theorem Repairable.opens_next (hl : here.rest.length < n) {value : T} {offset : Nat}
    (run : (p.skip fp) here = .ok value next)
    (free : offset = next.offset ∨ ¬(p.skip fp).Balks next)
    (h : Opens ends (Led fill (Greedy (Padded fill r))) next offset) :
    Opens ends (Several fill r) here offset := by
  obtain ⟨⟨m, rfl⟩, there, read, filled⟩ := hi.of_ok hf hl run
  obtain ⟨passed, split, size⟩ := here.advance_passes m
  refine h.shift split size fun unmoved cut more => ?_
  obtain ⟨start, gap, items⟩ := more
  obtain ⟨there', cut, filled'⟩ := hf.onward filled cut gap
  obtain ⟨here', cut, read'⟩ := hi.links hl run read filled cut (free.imp_left unmoved)
  exact ⟨here', _ :: _, cut, .more ⟨there', read', filled'⟩ items, by simp⟩

/-- A repetition, up to where it fails or ends. -/
theorem Repairable.opens_repeatUpTo (limit : Nat) (hl : here.rest.length < n)
    (room : here.rest.length < limit) :
    ∀ offset ∈ (repeatUpTo (p.skip fp) limit here).reach,
      Opens ends (Led fill (Greedy (Padded fill r))) here offset := by
  induction limit generalizing here with
  | zero => exact absurd room (Nat.not_lt_zero _)
  | succ limit ih =>
    intro offset ho
    rw [repeatUpTo] at ho
    have items : ∀ {here}, Opens ends (Several fill r) here offset →
        Opens ends (Led fill (Greedy (Padded fill r))) here offset :=
      fun h => h.mono (fun _ => id) fun _ read => ⟨_, read.led hf.skips hi.starts⟩
    cases run : (p.skip fp) here with
    | exhausted =>
      simp only [run] at ho
      cases ho
    | fail failure stop =>
      simp only [run] at ho
      split at ho
      · cases ho
        obtain failed | ⟨_, _, _, failed⟩ := skip_fail run
        · obtain same | opens := hi.mends here hl failure stop failed
          · rw [same]
            exact hf.opens_here hi.starts
          · exact items (hf.opens_item hi.starts opens)
        · exact absurd failed (hf.skips.not_fail failure stop)
      · cases ho
        exact hf.opens_here hi.starts
    | ok value next =>
      obtain ⟨⟨m, moved⟩, read⟩ := hi.of_ok hf hl run
      have shorter := (hf.skips.repeats hi.repeats).shrinks _ _ _ read
      have passed : next.offset ≠ here.offset := by
        subst moved
        exact (here.offset_lt_of_shorter shorter).ne'
      simp only [run, if_neg passed, reach_map] at ho
      have later := @ih next (by omega) (by omega) offset ho
      obtain ⟨limit, rfl⟩ : ∃ k, limit = k + 1 := ⟨limit - 1, by omega⟩
      exact items (hi.opens_next hf hl run (free_of_repeatUpTo ho) later)

theorem Repairable.opens_many (hl : here.rest.length < n) :
    ∀ offset ∈ (many (p.skip fp) here).reach,
      Opens ends (Led fill (Greedy (Padded fill r))) here offset :=
  hi.opens_repeatUpTo hf _ hl (Nat.lt_succ_self _)

end Chains

end ParticlePatterns.Grammar
