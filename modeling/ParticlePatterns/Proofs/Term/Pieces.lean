import ParticlePatterns.Proofs.Parsing.Reading
import ParticlePatterns.Proofs.Term.Tokens

/-!
# Pieces of filler

Filler is blanks and comments, one after another as long as there are any. A comment between
marks stops at the first place where it can, and one behind two strokes where its line ends.
-/

set_option autoImplicit false

namespace ParticlePatterns

open Parsing.Recogniser (runLength)

theorem Token.accepts_take_runLength {accepts : Char → Bool} {text : List Char} :
    ∀ c ∈ text.take (runLength accepts text), accepts c = true := by
  rw [Parsing.Recogniser.take_runLength]
  exact fun c => List.all_eq_true.1 List.all_takeWhile c

namespace Parsing

/-- A blank, a comment up to the first place where it can end, or one up to the end of its
line. -/
inductive Piece (blank inside : Char → Prop) : List Char → List Char → Unit → Prop
  | blank {c : Char} {rest : List Char} : blank c → Piece blank inside (c :: rest) rest ()
  | block {body rest : List Char} : (∀ c ∈ body, inside c) → ¬['*', '/'] <:+: body ++ ['*'] →
      Piece blank inside ('/' :: '*' :: (body ++ '*' :: '/' :: rest)) rest ()
  | line {body rest : List Char} : (∀ c ∈ body, c ≠ '\n') → (∀ c ∈ rest.head?, c = '\n') →
      Piece blank inside ('/' :: '/' :: (body ++ rest)) rest ()

theorem Piece.shrinks {blank inside : Char → Prop} : Reading.Shrinks (Piece blank inside) := by
  intro here rest _ h
  cases h <;> simp only [List.length_cons, List.length_append] <;> omega

theorem Piece.eq_append {blank inside : Char → Prop} {here rest : List Char}
    (h : Piece blank inside here rest ()) : ∃ text, text ≠ [] ∧ here = text ++ rest := by
  cases h with
  | @blank c => exact ⟨[c], by simp, rfl⟩
  | @block body => exact ⟨'/' :: '*' :: (body ++ ['*', '/']), by simp, by simp⟩
  | @line body => exact ⟨'/' :: '/' :: body, by simp, rfl⟩

/-- Neither at the start of the text nor behind it does the comment end. -/
theorem not_end_cons {c : Char} {body : List Char} : ¬['*', '/'] <:+: (c :: body) ++ ['*'] ↔
    ¬(c = '*' ∧ ∃ tail, body = '/' :: tail) ∧ ¬['*', '/'] <:+: body ++ ['*'] := by
  rw [List.cons_append, List.infix_cons_iff, not_or, List.cons_prefix_cons]
  refine and_congr_left' (not_congr ?_)
  cases body with
  | nil => simp
  | cons d tail => simp [eq_comm]

theorem commentEnd_sound {accepts : Char → Bool} {text : List Char} :
    ∀ {n : Nat}, commentEnd accepts text = some n → ∃ body rest,
      text = body ++ '*' :: '/' :: rest ∧ n = body.length + 2 ∧ (∀ c ∈ body, accepts c = true) ∧
        ¬['*', '/'] <:+: body ++ ['*'] := by
  induction text with
  | nil =>
    intro n h
    cases h
  | cons c text ih =>
    intro n h
    unfold commentEnd at h
    split at h
    next rest split =>
      cases h
      exact ⟨[], rest, split, rfl, by simp, by simp [List.infix_cons_iff]⟩
    next d tail early split =>
      cases split
      split at h
      next accepted =>
        obtain ⟨m, hm, rfl⟩ := Option.map_eq_some_iff.1 h
        obtain ⟨body, rest, rfl, rfl, inside, noEnd⟩ := ih hm
        refine ⟨c :: body, rest, rfl, rfl, List.forall_mem_cons.2 ⟨accepted, inside⟩,
          not_end_cons.2 ⟨?_, noEnd⟩⟩
        rintro ⟨rfl, tail, rfl⟩
        exact early _ rfl rfl
      · cases h
    next split => cases split

theorem commentEnd_complete {accepts : Char → Bool} {body : List Char} (rest : List Char)
    (inside : ∀ c ∈ body, accepts c = true) (noEnd : ¬['*', '/'] <:+: body ++ ['*']) :
    commentEnd accepts (body ++ '*' :: '/' :: rest) = some (body.length + 2) := by
  induction body with
  | nil => rfl
  | cons c body ih =>
    obtain ⟨accepted, inside⟩ := List.forall_mem_cons.1 inside
    obtain ⟨noEnd, later⟩ := not_end_cons.1 noEnd
    rw [List.cons_append, commentEnd]
    · rw [if_pos accepted, ih inside later]
      rfl
    · rintro tail rfl split
      refine noEnd ⟨rfl, ?_⟩
      cases body with
      | nil => cases split
      | cons d body =>
        cases split
        exact ⟨_, rfl⟩

namespace Filler

structure Cuts (f : Filler) (blank inside : Char → Prop) : Prop where
  blank_iff : ∀ c, f.blank c = true ↔ blank c
  comment_eq : ∃ accepts : Char → Bool, f.comment = commentEnd accepts ∧
    ∀ c, accepts c = true ↔ inside c
  not_slash : ¬blank '/'

variable {f : Filler} {blank inside : Char → Prop} {here rest : List Char}

theorem Cuts.sound (hf : f.Cuts blank inside) {n : Nat} (h : f.pieceLength? here = some n) :
    Piece blank inside here (here.drop n) () := by
  obtain ⟨accepts, hc, ha⟩ := hf.comment_eq
  unfold pieceLength? at h
  split at h
  next rest =>
    obtain ⟨m, hm, rfl⟩ := Option.map_eq_some_iff.1 h
    rw [hc] at hm
    obtain ⟨body, rest, rfl, rfl, within, noEnd⟩ := commentEnd_sound hm
    have behind :
        ('/' :: '*' :: (body ++ '*' :: '/' :: rest)).drop (body.length + 2 + 2) = rest := by simp
    rw [behind]
    exact .block (fun c hc => (ha c).1 (within c hc)) noEnd
  next rest =>
    cases h
    have within : ∀ c ∈ rest.take (runLength notNewline rest), c ≠ '\n' :=
      fun c hc => by simpa [notNewline] using Token.accepts_take_runLength c hc
    have ends : ∀ c ∈ (rest.drop (runLength notNewline rest)).head?, c = '\n' := by
      rw [Recogniser.drop_runLength]
      intro c hc
      have out := List.head?_dropWhile_not notNewline rest
      rw [Option.mem_def.1 hc] at out
      simpa [notNewline] using out
    have piece : Piece blank inside ('/' :: '/' :: (_ ++ _)) _ () := .line within ends
    rwa [List.take_append_drop] at piece
  next c rest _ _ =>
    split at h
    next isBlank =>
      cases h
      exact .blank ((hf.blank_iff c).1 isBlank)
    · cases h
  · cases h

theorem Cuts.complete (hf : f.Cuts blank inside) {text : List Char}
    (h : Piece blank inside (text ++ rest) rest ()) :
    f.pieceLength? (text ++ rest) = some text.length := by
  obtain ⟨accepts, hc, ha⟩ := hf.comment_eq
  generalize whole : text ++ rest = here at h ⊢
  cases h with
  | @blank c _ isBlank =>
    have same : text = [c] :=
      List.append_cancel_right (whole.trans rfl : text ++ rest = [c] ++ rest)
    rw [same]
    refine pieceLength?_blank rest ((hf.blank_iff c).2 isBlank) ?_
    rintro rfl
    exact hf.not_slash isBlank
  | @block body _ within noEnd =>
    have same : text = '/' :: '*' :: (body ++ ['*', '/']) :=
      List.append_cancel_right (whole.trans (by simp) : text ++ rest = _ ++ rest)
    have found := commentEnd_complete rest (fun c hc => (ha c).2 (within c hc)) noEnd
    rw [pieceLength?, hc, found, same]
    simp
  | @line body _ within ends =>
    have same : text = '/' :: '/' :: body :=
      List.append_cancel_right (whole.trans (by simp) : text ++ rest = _ ++ rest)
    have run : runLength notNewline (body ++ rest) = body.length := by
      refine Token.runLength_append (fun c hc => by simpa [notNewline] using within c hc) ?_
      intro c hc
      simpa [notNewline] using ends c hc
    rw [pieceLength?, run, same]
    rfl

theorem lengthFrom_inside (f : Filler) (text rest : List Char) :
    f.lengthFrom text.length (text ++ rest) = text.length + f.lengthFrom 0 rest := by
  induction text with
  | nil => simp
  | cons c text ih =>
    rw [List.cons_append, List.length_cons, lengthFrom, ih]
    omega

theorem lengthFrom_piece {text rest : List Char} (hne : text ≠ [])
    (h : f.pieceLength? (text ++ rest) = some text.length) :
    f.lengthFrom 0 (text ++ rest) = text.length + f.lengthFrom 0 rest := by
  obtain ⟨c, tail, rfl⟩ := List.exists_cons_of_ne_nil hne
  rw [List.cons_append] at h ⊢
  rw [lengthFrom, h]
  have inside := lengthFrom_inside f tail rest
  simp only [List.length_cons, Nat.add_sub_cancel, inside]
  omega

theorem lengthFrom_none (h : f.pieceLength? here = none) : f.lengthFrom 0 here = 0 := by
  cases here with
  | nil => rfl
  | cons c rest => rw [lengthFrom, h]

/-- The recogniser passes over all pieces there are. -/
theorem Cuts.greedy_iff (hf : f.Cuts blank inside) :
    (∃ pieces, Greedy (Piece blank inside) here rest pieces) ↔
      rest = here.drop (f.lengthFrom 0 here) := by
  have passes : ∀ {here rest pieces}, Greedy (Piece blank inside) here rest pieces →
      rest = here.drop (f.lengthFrom 0 here) := by
    intro here rest pieces h
    induction h with
    | @stop here nothing =>
      cases found : f.pieceLength? here with
      | none => rw [lengthFrom_none found, List.drop_zero]
      | some n => exact absurd (hf.sound found) (nothing _ _)
    | more first _ ih =>
      obtain ⟨text, hne, rfl⟩ := first.eq_append
      rw [ih, lengthFrom_piece hne (hf.complete first), ← List.drop_drop, List.drop_left]
  constructor
  · rintro ⟨pieces, h⟩
    exact passes h
  · rintro rfl
    have shrinks : Reading.Shrinks (Piece blank inside) := Piece.shrinks
    obtain ⟨rest, pieces, h⟩ := Greedy.exists_of_shrinks shrinks here
    exact ⟨pieces, passes h ▸ h⟩

end Filler

end Parsing

namespace Token

open Parsing (Greedy Piece Recogniser commentEnd notNewline)

def Blank (here rest : List Char) : Prop :=
  ∃ pieces, Greedy (Piece (fun c => c = ' ' ∨ c = '\t' ∨ c = '\r' ∨ c = '\n') fun _ => True)
    here rest pieces

def LineBlank (here rest : List Char) : Prop :=
  ∃ pieces, Greedy (Piece (fun c => c = ' ' ∨ c = '\t') fun c => c ≠ '\n') here rest pieces

def Fills (token : Recogniser) (r : List Char → List Char → Prop) : Prop :=
  ∀ here rest, r here rest ↔ ∃ n, token here = some n ∧ rest = here.drop n

theorem fills_filler : Fills filler Blank := by
  have cuts : Parsing.Filler.Cuts ⟨fun c => c = ' ' || c = '\t' || c = '\r' || c = '\n',
      commentEnd fun _ => true⟩ (fun c => c = ' ' ∨ c = '\t' ∨ c = '\r' ∨ c = '\n')
      fun _ => True :=
    ⟨fun c => by simp [or_assoc], ⟨_, rfl, by simp⟩, by decide⟩
  intro here rest
  refine cuts.greedy_iff.trans ?_
  simp [filler, Parsing.Filler.recogniser]

theorem fills_lineFiller : Fills lineFiller LineBlank := by
  have cuts : Parsing.Filler.Cuts ⟨fun c => c = ' ' || c = '\t', commentEnd notNewline⟩
      (fun c => c = ' ' ∨ c = '\t') fun c => c ≠ '\n' :=
    ⟨fun c => by simp, ⟨_, rfl, by simp [notNewline]⟩, by decide⟩
  intro here rest
  refine cuts.greedy_iff.trans ?_
  simp [lineFiller, Parsing.Filler.recogniser]

end Token

end ParticlePatterns
