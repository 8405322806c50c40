import ParticlePatterns.Proofs.Parsing.Repetition

/-!
# Limits that do not show

A recursive parser is given as many levels as there are characters left. More levels only add
answers, so where the levels are enough for an answer the parser is what it would be without
them: its body, with the parser itself inside.
-/

set_option autoImplicit false

namespace ParticlePatterns.Parsing.Parser

variable {T U : Type}

def Below (p q : Parser T) : Prop :=
  ∀ here, p here = .exhausted ∨ p here = q here

variable {p q : Parser T}

theorem below_refl (p : Parser T) : p.Below p :=
  fun _ => .inr rfl

theorem Below.eq (h : p.Below q) {here : Cursor} (ends : p here ≠ .exhausted) :
    q here = p here :=
  ((h here).resolve_left ends).symm

theorem Below.bind {f g : T → Parser U} (h : p.Below q) (hf : ∀ value, (f value).Below (g value)) :
    (p.bind f).Below (q.bind g) := by
  intro here
  unfold Parser.bind
  obtain none | same := h here
  · exact .inl (by rw [none])
  · rw [← same]
    cases p here with
    | ok value there => exact hf value there
    | fail | exhausted => exact .inr rfl

theorem Below.map (h : p.Below q) (f : T → U) : (p.map f).Below (q.map f) :=
  h.bind fun value => below_refl (pure (f value))

theorem Below.skip {k l : Parser U} (h : p.Below q) (hk : k.Below l) :
    (p.skip k).Below (q.skip l) :=
  h.bind fun value => hk.map fun _ => value

theorem Below.label (h : p.Below q) (expected : String) :
    (p.label expected).Below (q.label expected) := by
  intro here
  unfold Parser.label
  obtain none | same := h here
  · exact .inl (by rw [none])
  · exact .inr (by rw [same])

theorem below_tryEach {ps qs : List (Parser T)} (h : List.Forall₂ Below ps qs)
    (earlier : Option Failure) : (tryEach earlier ps).Below (tryEach earlier qs) := by
  induction h generalizing earlier with
  | nil => exact below_refl _
  | @cons p q ps qs first _ ih =>
    intro here
    simp only [tryEach]
    obtain none | same := first here
    · exact .inl (by rw [none])
    · rw [← same]
      cases p here with
      | ok | exhausted => exact .inr rfl
      | fail failure stop =>
        dsimp only
        split
        · exact .inr rfl
        · exact ih _ here

theorem Below.choice {ps qs : List (Parser T)} (h : List.Forall₂ Below ps qs) :
    (choice ps).Below (choice qs) :=
  below_tryEach h none

theorem Below.repeatUpTo (h : p.Below q) (limit : Nat) :
    (repeatUpTo p limit).Below (repeatUpTo q limit) := by
  induction limit with
  | zero => exact below_refl _
  | succ limit ih =>
    intro here
    simp only [Parser.repeatUpTo]
    obtain none | same := h here
    · exact .inl (by rw [none])
    · rw [← same]
      cases p here with
      | ok value there =>
        dsimp only
        split
        · exact .inr rfl
        · exact ih.map (value :: ·) there
      | fail | exhausted => exact .inr rfl

theorem Below.many (h : p.Below q) : (many p).Below (many q) :=
  fun here => h.repeatUpTo (here.rest.length + 1) here

theorem Below.many1 (h : p.Below q) : (many1 p).Below (many1 q) :=
  h.bind fun value => h.many.map (value :: ·)

section Fix

variable {body : Parser T → Parser T} (grows : ∀ p q, p.Below q → (body p).Below (body q))

include grows

theorem below_unroll {m n : Nat} (h : m ≤ n) : (unroll body m).Below (unroll body n) := by
  induction m generalizing n with
  | zero => exact fun _ => .inl rfl
  | succ m ih =>
    obtain ⟨n, rfl⟩ := Nat.exists_eq_add_one.2 (Nat.zero_lt_of_lt h)
    exact grows _ _ (ih (Nat.le_of_succ_le_succ h))

variable (enough : ∀ levels, (unroll body levels).HaltsBelow levels)

include enough

theorem unroll_below_fix (levels : Nat) : (unroll body levels).Below (fix body) := by
  intro here
  obtain few | many := Nat.le_total levels (here.rest.length + 1)
  · exact below_unroll grows few here
  · exact .inr ((below_unroll grows many).eq (enough _ here (Nat.lt_succ_self _)))

/-- A recursion that ends within its levels is one without levels. -/
theorem fix_eq_body : fix body = body (fix body) := by
  funext here
  -- one level more than are needed, to take the body off
  have ends := enough (here.rest.length + 2) here (by omega)
  have inside := grows _ _ (unroll_below_fix grows enough (here.rest.length + 1))
  calc fix body here = unroll body (here.rest.length + 2) here :=
        (unroll_below_fix grows enough _).eq ends
    _ = body (fix body) here := (inside.eq ends).symm

end Fix

end ParticlePatterns.Parsing.Parser
