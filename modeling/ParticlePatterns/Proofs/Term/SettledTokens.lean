import ParticlePatterns.Proofs.Parsing.Settles
import ParticlePatterns.Proofs.Term.Language

/-!
# Filler, tokens and marks are settled

Reading is stuck where a term has begun that cannot be derived. Filler passes nothing there and
no mark stands there, so that whatever is put together from them stays stuck.
-/

set_option autoImplicit false

namespace ParticlePatterns.Grammar

open Parsing (Cursor Greedy Reading)
open Parsing.Parser
open Token (Blank Fills IsName IsNumber LineBlank Longest)

variable {ν : Type} [Numeral ν]

/-- A term starts here like one, but none can be derived. -/
def Stuck (ν : Type) [Numeral ν] (here : List Char) : Prop :=
  (∃ c tail, here = c :: tail ∧ startsTerm c = true) ∧ ∀ rest (t : Term ν), ¬Derives here rest t

theorem not_stuck {c : Char} (hc : startsTerm c = false) (tail : List Char) :
    ¬Stuck ν (c :: tail) := by
  rintro ⟨⟨d, _, same, hd⟩, _⟩
  cases same
  exact absurd hd (by simp [hc])

section Fillers

structure Skips (p : Parsing.Parser String) (fill : List Char → List Char → Prop) : Prop where
  settles : ∀ {stuck} (here : Cursor),
    p.Settles stuck (fun here rest v => fill here rest ∧ here = v.toList ++ rest) here
  total : ∀ here, ∃ rest, fill here rest
  suffix : ∀ here rest, fill here rest → ∃ text, here = text ++ rest
  clear : ∀ c tail rest, startsTerm c = true → fill (c :: tail) rest → rest = c :: tail

variable {T : Type} {r : Reading T} {p : Parsing.Parser T} {here : Cursor}
  {fp : Parsing.Parser String} {fill : List Char → List Char → Prop}

theorem Skips.of_fills {token : Parsing.Recogniser} (expected : String) (h : Fills token fill)
    (total : ∀ here, (token here).isSome) (clear : ∀ c tail, startsTerm c = true →
      token (c :: tail) = some 0) : Skips (pattern token expected) fill := by
  have suffix : ∀ here rest, fill here rest → ∃ text, here = text ++ rest := by
    intro here rest hf
    obtain ⟨n, _, rfl⟩ := (h here rest).1 hf
    exact ⟨here.take n, (List.take_append_drop n here).symm⟩
  refine ⟨fun here => (settles_pattern token expected).congr fun rest v => ?_, fun here => ?_,
    suffix, fun c tail rest hc hf => ?_⟩
  · rw [h]
    constructor
    · rintro ⟨⟨n, found, rfl⟩, split⟩
      refine ⟨n, found, rfl, ?_⟩
      have text : here.rest.take n = v.toList :=
        List.append_cancel_right ((List.take_append_drop n here.rest).trans split)
      rw [text, String.ofList_toList]
    · rintro ⟨n, found, rfl, rfl⟩
      exact ⟨⟨n, found, rfl⟩, by simp⟩
  · obtain ⟨n, found⟩ := Option.isSome_iff_exists.1 (total here)
    exact ⟨_, (h here _).2 ⟨n, found, rfl⟩⟩
  · obtain ⟨n, found, rfl⟩ := (h _ rest).1 hf
    cases (clear c tail hc).symm.trans found
    rfl

theorem Skips.keeps (hf : Skips fp fill) {here rest : List Char} (hs : Stuck ν here)
    (h : fill here rest) : Stuck ν rest := by
  obtain ⟨⟨c, tail, rfl, hc⟩, none⟩ := hs
  rw [hf.clear c tail rest hc h]
  exact ⟨⟨c, tail, rfl, hc⟩, none⟩

theorem Skips.behind (hf : Skips fp fill) (hp : p.Settles (Stuck ν) r here) :
    (p.skip fp).Settles (Stuck ν) (Padded fill r) here := by
  have both := hp.bind (q := fun v => fp.map fun _ => v) (fun _ n _ => (hf.settles _).map _)
    fun v => Reading.Keeps.map (fun here rest w hs h => hf.keeps hs h.1) _
  refine both.congr fun rest v => ⟨?_, ?_⟩
  · rintro ⟨there, read, filled⟩
    obtain ⟨text, split⟩ := hf.suffix _ _ filled
    exact ⟨there, v, read, String.ofList text, ⟨filled, by simpa using split⟩, rfl⟩
  · rintro ⟨there, _, read, _, ⟨filled, _⟩, rfl⟩
    exact ⟨there, read, filled⟩

theorem Skips.keeps_led (hf : Skips fp fill) (h : r.Keeps (Stuck ν)) :
    (Led fill r).Keeps (Stuck ν) := by
  rintro here rest value hs ⟨there, filled, read⟩
  exact h there rest value (hf.keeps hs filled) read

theorem Skips.before (hf : Skips fp fill)
    (hq : ∀ there : Cursor, fill here.rest there.rest → p.Settles (Stuck ν) r there)
    (keeps : r.Keeps (Stuck ν)) : (fp.andThen p).Settles (Stuck ν) (Led fill r) here := by
  have both : (fp.bind fun _ => p).Settles (Stuck ν) (Reading.bind _ fun _ => r) here :=
    (hf.settles here).bind (fun _ n h => hq _ h.1) fun _ => keeps
  refine both.congr fun rest v => ⟨?_, ?_⟩
  · rintro ⟨there, filled, read⟩
    obtain ⟨text, split⟩ := hf.suffix _ _ filled
    exact ⟨there, String.ofList text, ⟨filled, by simpa using split⟩, read⟩
  · rintro ⟨there, _, ⟨filled, _⟩, read⟩
    exact ⟨there, filled, read⟩

theorem Skips.length_le (hf : Skips fp fill) {here rest : List Char} (h : fill here rest) :
    rest.length ≤ here.length := by
  obtain ⟨text, rfl⟩ := hf.suffix _ _ h
  simp

theorem Skips.repeats (hf : Skips fp fill) {n : Nat} (h : Repeats (Stuck ν) p r n) :
    Repeats (Stuck ν) (p.skip fp) (Padded fill r) n := by
  refine ⟨shrinks_padded hf.length_le h.shrinks, fun here hl => hf.behind (h.settles here hl),
    ?_, fun here hl nothing moves => h.stuck_of_none here hl ?_ fun stops => moves (stops.bind _)⟩
  · rintro here rest v hs ⟨there, read, _⟩
    exact h.none_of_stuck here there v hs read
  · intro there v read
    obtain ⟨rest, filled⟩ := hf.total there
    exact nothing rest v ⟨there, read, filled⟩

/-- No filler starts like a term. -/
theorem lengthFrom_of_startsTerm {f : Parsing.Filler} {c : Char}
    (hf : ∀ c, f.blank c = true → startsFiller c = true) (hc : startsTerm c = true)
    (tail : List Char) : f.lengthFrom 0 (c :: tail) = 0 := by
  have clear := startsFiller_of_startsTerm hc
  refine Parsing.Filler.lengthFrom_none (Parsing.Filler.pieceLength?_clear fun d hd => ?_)
  cases hd
  refine ⟨Bool.eq_false_iff.2 fun blank => ?_, ?_⟩
  · exact absurd (hf c blank) (by simp [clear])
  · rintro rfl
    exact absurd clear (by decide)

theorem skips_filler : Skips filler Blank :=
  .of_fills "whitespace" Token.fills_filler (fun _ => rfl) fun c tail hc =>
    congrArg some (lengthFrom_of_startsTerm (by simp +contextual [startsFiller]) hc tail)

theorem skips_lineFiller : Skips lineFiller LineBlank :=
  .of_fills "whitespace" Token.fills_lineFiller (fun _ => rfl) fun c tail hc =>
    congrArg some (lengthFrom_of_startsTerm (by simp +contextual [startsFiller]) hc tail)

/-- Behind a mark and filler the text is shorter. -/
theorem settles_marked (mark : String) (hm : mark.toList ≠ [])
    (hp : ∀ there : Cursor, there.rest.length < here.rest.length → p.Settles (Stuck ν) r there)
    (keeps : r.Keeps (Stuck ν)) : (((string mark).andThen filler).andThen p).Settles (Stuck ν)
      ((Led Blank r).after mark.toList) here := by
  rw [andThen_assoc]
  refine Settles.after_string mark (fun there split => ?_) (skips_filler.keeps_led keeps)
  refine skips_filler.before (fun further filled => hp further ?_) keeps
  have some := List.length_pos_iff.2 hm
  have := skips_filler.length_le filled
  rw [split, List.length_append]
  omega

/-- What closes a pair of brackets does not start like a term. -/
theorem settles_closed (hp : p.Settles (Stuck ν) r here) (close : String) {c : Char}
    (hc : close.toList = [c]) (ht : startsTerm c = false) :
    (p.skip (string close)).Settles (Stuck ν) (r.before [c]) here := by
  rw [← hc]
  refine hp.skip_string close fun rest => ?_
  rw [hc]
  exact not_stuck ht rest

end Fillers

section Tokens

variable {here : Cursor}

def Lexeme (kind : List Char → Prop) : Reading String :=
  fun here rest v => Longest kind v.toList here rest

theorem settles_lexeme {stuck : List Char → Prop} {token : Parsing.Recogniser}
    {kind : List Char → Prop} (h : Token.Spots token kind) (expected : String) :
    (pattern token expected).Settles stuck (Lexeme kind) here := by
  refine (settles_pattern token expected).congr fun rest v => ?_
  rw [Lexeme, h.iff]
  refine exists_congr fun n => and_congr_right' (and_congr_right' ?_)
  rw [← String.toList_inj, String.toList_ofList]

omit [Numeral ν] in
theorem symbolRule_iff {here rest : List Char} {t : Term ν} :
    SymbolRule here rest t ↔ (Lexeme IsName).map Term.symbol here rest t := by
  constructor
  · rintro ⟨text, longest, rfl⟩
    exact ⟨String.ofList text, by rwa [Lexeme, String.toList_ofList], rfl⟩
  · rintro ⟨name, longest, rfl⟩
    exact ⟨name.toList, longest, by rw [String.ofList_toList]⟩

theorem settles_symbol :
    (symbol : Parsing.Parser (Term ν)).Settles (Stuck ν) SymbolRule here :=
  ((settles_lexeme Token.spots_symbol "symbol").map _).congr fun _ _ => symbolRule_iff

theorem numberRule_iff {here rest : List Char} {t : Term ν} :
    NumberRule here rest t ↔ ∃ text value, Lexeme IsNumber here rest text ∧
      Numeral.read? text.toList = some value ∧ t = .number value := by
  constructor
  · rintro ⟨text, value, longest, read, rfl⟩
    refine ⟨String.ofList text, value, ?_, ?_, rfl⟩
    · rwa [Lexeme, String.toList_ofList]
    · rwa [String.toList_ofList]
  · rintro ⟨text, value, longest, read, rfl⟩
    exact ⟨text.toList, value, longest, read, rfl⟩

theorem settles_number :
    (number : Parsing.Parser (Term ν)).Settles (Stuck ν) NumberRule here := by
  have token : Parsing.Outcome.Settles (Stuck ν) (Lexeme IsNumber) here
      (pattern Token.number "number" here) := settles_lexeme Token.spots_number "number"
  rw [Parsing.Parser.Settles, number]
  cases found : pattern Token.number "number" here with
  | exhausted =>
    rw [found] at token
    cases token
  | fail failure stop =>
    rw [found] at token
    cases token with
    | stops same nothing =>
      refine .stops same fun rest t h => ?_
      obtain ⟨text, _, longest, _⟩ := numberRule_iff.1 h
      exact nothing rest text longest
    | breaks later ends =>
      refine .breaks later fun rest t h => ?_
      obtain ⟨text, _, longest, _⟩ := numberRule_iff.1 h
      exact ends rest text longest
  | ok text there =>
    rw [found] at token
    cases token with
    | ok m moved unique =>
      have passed := here.offset_le_advance m
      rw [← moved] at passed
      cases read : Numeral.read? (ν := ν) text.toList with
      | some value =>
        simp only [read]
        refine .ok m moved fun rest t => numberRule_iff.trans ⟨?_, ?_⟩
        · rintro ⟨other, x, longest, hx, rfl⟩
          obtain ⟨rfl, rfl⟩ := (unique rest other).1 longest
          cases hx.symm.trans read
          exact ⟨rfl, rfl⟩
        · rintro ⟨rfl, rfl⟩
          exact ⟨text, value, (unique _ _).2 ⟨rfl, rfl⟩, read, rfl⟩
      | none =>
        simp only [read]
        -- the literal is the longest there, so that no other one can stand in for it
        have nothing : ∀ rest t, ¬NumberRule (ν := ν) here.rest rest t := by
          intro rest t h
          obtain ⟨other, x, longest, hx, _⟩ := numberRule_iff.1 h
          obtain ⟨rfl, rfl⟩ := (unique rest other).1 longest
          cases hx.symm.trans read
        obtain same | later := passed.eq_or_lt
        · exact .stops same.symm nothing
        · exact .breaks later fun rest t h => absurd h (nothing rest t)

end Tokens

end ParticlePatterns.Grammar
