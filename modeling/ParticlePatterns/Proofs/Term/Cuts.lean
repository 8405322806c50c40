import ParticlePatterns.Proofs.Term.Lexemes

/-!
# Texts that are cut

Where a text is cut a new line begins instead of the rest. No token runs over the end of a line,
so that what was read up to the cut, or up to some place before it, is read in the same way
again. Filler alone may go on behind a cut.
-/

set_option autoImplicit false

namespace ParticlePatterns

namespace Parsing

/-- The same text up to some place, with a new line where the rest is lost. -/
def Cut (lost line here there : List Char) : Prop :=
  ∃ kept, here = kept ++ lost ∧ there = kept ++ '\n' :: line

section Cuts

variable {lost line here there : List Char}

theorem Cut.start : Cut lost line lost ('\n' :: line) :=
  ⟨[], rfl, rfl⟩

theorem Cut.append (text : List Char) (h : Cut lost line here there) :
    Cut lost line (text ++ here) (text ++ there) := by
  obtain ⟨kept, rfl, rfl⟩ := h
  exact ⟨text ++ kept, by simp, by simp⟩

theorem Cut.cons (c : Char) (h : Cut lost line here there) :
    Cut lost line (c :: here) (c :: there) :=
  h.append [c]

theorem Cut.unique {other : List Char} (h : Cut lost line here there)
    (ho : Cut lost line here other) : there = other := by
  obtain ⟨kept, rfl, rfl⟩ := h
  obtain ⟨_, same, rfl⟩ := ho
  rw [List.append_cancel_right same]

/-- What stands behind a cut on one line was there before. -/
theorem Cut.prefix_of {text : List Char} (h : Cut lost line here there) (ht : text <+: there)
    (hn : '\n' ∉ text) : text <+: here := by
  obtain ⟨kept, rfl, rfl⟩ := h
  have within : text <+: kept := by
    rw [List.append_cons] at ht
    obtain inside | beyond := List.prefix_or_prefix_of_prefix ht (List.prefix_append _ line)
    · obtain rfl | within := List.prefix_concat_iff.1 inside
      · exact absurd (by simp) hn
      · exact within
    · exact absurd (beyond.subset (by simp)) hn
  exact within.trans (List.prefix_append _ _)

theorem Cut.head {c : Char} (h : Cut lost line here there) (hc : c ∈ there.head?)
    (hn : c ≠ '\n') : c ∈ here.head? := by
  obtain ⟨tail, rfl⟩ := List.head?_eq_some_iff.1 hc
  obtain ⟨rest, rfl⟩ := h.prefix_of (List.prefix_append [c] tail) (by simpa using hn.symm)
  rfl

/-- What one reading finds before a cut the other finds there too, once it is cut. -/
def Reading.Survives {T : Type} (lost line : List Char) (r s : Reading T) : Prop :=
  ∀ here rest rest' value, r here rest value → Cut lost line rest rest' →
    ∃ here', Cut lost line here here' ∧ s here' rest' value

/-- Items before a cut, and further ones behind it. -/
theorem Greedy.onward {T : Type} {item other : Reading T} {rest rest' last : List Char}
    {values more : List T} (hs : Reading.Survives lost line item other)
    (h : Greedy item here rest values) (hc : Cut lost line rest rest')
    (hm : Greedy other rest' last more) :
    ∃ here', Cut lost line here here' ∧ Greedy other here' last (values ++ more) := by
  induction h with
  | stop _ => exact ⟨rest', hc, hm⟩
  | more first _ ih =>
    obtain ⟨there', cut, later⟩ := ih hc
    obtain ⟨here', cut, read⟩ := hs _ _ _ _ first cut
    exact ⟨here', cut, .more read later⟩

theorem Greedy.ends {T : Type} {item : Reading T} {rest : List Char} {values : List T}
    (h : Greedy item here rest values) : ∀ last value, ¬item rest last value := by
  induction h with
  | stop nothing => exact nothing
  | more _ _ ih => exact ih

variable {blank inside : Char → Prop}

theorem Piece.survives :
    Reading.Survives lost line (Piece blank inside) (Piece blank inside) := by
  intro here rest rest' _ h hc
  cases h with
  | @blank c _ isBlank => exact ⟨c :: rest', hc.cons c, .blank isBlank⟩
  | @block body _ within noEnd =>
    refine ⟨'/' :: '*' :: (body ++ '*' :: '/' :: rest'), ?_, .block within noEnd⟩
    simpa using hc.append ('/' :: '*' :: (body ++ ['*', '/']))
  | @line body _ within ends =>
    refine ⟨'/' :: '/' :: (body ++ rest'), hc.append ('/' :: '/' :: body), .line within ?_⟩
    intro c hr
    by_contra other
    exact other (ends c (hc.head hr other))

theorem exists_line (text : List Char) :
    ∃ rest, Piece blank inside ('/' :: '/' :: text) rest () := by
  have within : ∀ c ∈ text.takeWhile (· ≠ '\n'), c ≠ '\n' :=
    fun c hc => by simpa using List.mem_takeWhile_imp hc
  have ends : ∀ c ∈ (text.dropWhile (· ≠ '\n')).head?, c = '\n' := by
    intro c hc
    have out := List.head?_dropWhile_not (fun c => decide (c ≠ '\n')) text
    rw [Option.mem_def.1 hc] at out
    simpa using out
  have piece : Piece blank inside ('/' :: '/' :: (_ ++ _)) _ () := .line within ends
  rw [List.takeWhile_append_dropWhile] at piece
  exact ⟨_, piece⟩

/-- A piece that keeps to its line does not come from a cut. -/
theorem Piece.of_cut {rest : List Char} (hb : ¬blank '\n') (hi : ¬inside '\n')
    (h : Piece blank inside there rest ()) (hc : Cut lost line here there) :
    ∃ rest, Piece blank inside here rest () := by
  cases h with
  | @blank c _ isBlank =>
    have kept : [c] <+: here :=
      hc.prefix_of (List.prefix_append [c] rest) (by
        rw [List.mem_singleton]
        rintro rfl
        exact hb isBlank)
    obtain ⟨rest, rfl⟩ := kept
    exact ⟨rest, .blank isBlank⟩
  | @block body _ within noEnd =>
    have kept : '/' :: '*' :: (body ++ ['*', '/']) <+: here := by
      refine hc.prefix_of ⟨rest, by simp⟩ ?_
      have : '\n' ∉ body := fun hn => hi (within _ hn)
      simpa using this
    obtain ⟨rest, rfl⟩ := kept
    exact ⟨rest, by simpa using Piece.block within noEnd⟩
  | @line body _ within ends =>
    have kept : ['/', '/'] <+: here := hc.prefix_of ⟨body ++ rest, rfl⟩ (by simp)
    obtain ⟨rest, rfl⟩ := kept
    exact exists_line rest

end Cuts

end Parsing

namespace Token

open Parsing (Cut Greedy Piece)

variable {lost line here rest rest' : List Char}

theorem Blank.onward {last : List Char} (h : Blank here rest) (hc : Cut lost line rest rest')
    (hm : Blank rest' last) : ∃ here', Cut lost line here here' ∧ Blank here' last := by
  obtain ⟨pieces, h⟩ := h
  obtain ⟨more, hm⟩ := hm
  obtain ⟨here', cut, whole⟩ := h.onward Piece.survives hc hm
  exact ⟨here', cut, _, whole⟩

theorem LineBlank.survives (h : LineBlank here rest) (hc : Cut lost line rest rest') :
    ∃ here', Cut lost line here here' ∧ LineBlank here' rest' := by
  obtain ⟨pieces, h⟩ := h
  have nothing : ∀ last v,
      ¬Piece (fun c => c = ' ' ∨ c = '\t') (fun c => c ≠ '\n') rest' last v := by
    intro last v piece
    obtain ⟨last, before⟩ := piece.of_cut (by decide) (by simp) hc
    exact h.ends last () before
  obtain ⟨here', cut, whole⟩ := h.onward Piece.survives hc (.stop nothing)
  exact ⟨here', cut, _, whole⟩

/-- A token on one line that was the longest is the longest again. -/
theorem Longest.survives {kind : List Char → Prop} (hk : ∀ text, kind text → '\n' ∉ text)
    {text : List Char} (h : Longest kind text here rest) (hc : Cut lost line rest rest') :
    ∃ here', Cut lost line here here' ∧ Longest kind text here' rest' := by
  have cut : Cut lost line here (text ++ rest') := h.split ▸ hc.append text
  refine ⟨text ++ rest', cut, rfl, h.ofKind, fun other front ofKind => ?_⟩
  exact h.longest other (cut.prefix_of front (hk other ofKind)) ofKind

theorem newline_not_mem_name (text : List Char) (h : IsName text) : '\n' ∉ text := by
  obtain ⟨c, tail, rfl, start, parts⟩ := h
  rw [List.mem_cons, not_or]
  constructor
  · rintro rfl
    exact absurd start (by decide)
  · exact fun hn => absurd (parts _ hn) (by decide)

theorem newline_not_mem_digits {text : List Char} (h : IsDigits text) : '\n' ∉ text :=
  fun hn => absurd (h.2 _ hn) (by decide)

theorem newline_not_mem_sign {text : List Char} (h : IsSign text) : '\n' ∉ text := by
  obtain rfl | rfl | rfl := h <;> decide

theorem newline_not_mem_number (text : List Char) (h : IsNumber text) : '\n' ∉ text := by
  obtain ⟨sign, whole, fraction, exponent, rfl, hs, hd, hf, he⟩ := h
  have fraction_clear : '\n' ∉ fraction := by
    obtain rfl | ⟨places, rfl, hp⟩ := hf
    · simp
    · simpa using newline_not_mem_digits hp
  have exponent_clear : '\n' ∉ exponent := by
    obtain rfl | ⟨mark, sign, digits, rfl, hm, hs, hd⟩ := he
    · simp
    · have mark_clear : '\n' ≠ mark := by obtain rfl | rfl := hm <;> decide
      simpa [mark_clear] using ⟨newline_not_mem_sign hs, newline_not_mem_digits hd⟩
  simpa using ⟨newline_not_mem_sign hs, newline_not_mem_digits hd, fraction_clear, exponent_clear⟩

end Token

end ParticlePatterns
