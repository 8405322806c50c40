import ParticlePatterns.Proofs.Parsing.Order

/-!
# How deep parsers go

A parser that calls itself only behind something it has read has less text left each time. So
the recursion ends, and as many parsers are inside of each other as there are characters left,
times what one round of the recursion adds.
-/

set_option autoImplicit false

namespace ParticlePatterns.Parsing

namespace Traced

variable {R T U : Type}

structure Within (p : Traced R T) (length levels : Nat) : Prop where
  onward : p.parser.Onward
  halts : p.parser.HaltsBelow length
  shallow : ∀ here : Cursor, here.rest.length < length → p.depth here ≤ levels

variable {p : Traced R T} {n m a b : Nat}

theorem Within.mono (h : p.Within n a) (hab : a ≤ b) : p.Within n b :=
  ⟨h.onward, h.halts, fun here hl => (h.shallow here hl).trans hab⟩

theorem Within.shorter (h : p.Within n a) (hm : m ≤ n) : p.Within m a :=
  ⟨h.onward, fun here hl => h.halts here (hl.trans_le hm),
    fun here hl => h.shallow here (hl.trans_le hm)⟩

theorem within_read {p : Parser T} (halts : p.Halts) (onward : p.Onward) (n : Nat) :
    (read p : Traced R T).Within n 1 :=
  ⟨onward, fun here _ => halts here, fun _ _ => le_rfl⟩

section Bind

variable {q : T → Traced R U}

theorem Within.bind_of (hp : p.Within n a) (hq : ∀ value, (q value).Within m b)
    (left : ∀ here value there, here.rest.length < n → p.parser here = .ok value there →
      there.rest.length < m) : (p.bind q).Within n (max a b + 1) := by
  refine ⟨hp.onward.bind fun value => (hq value).onward,
    hp.halts.bind (fun value => (hq value).halts) left, fun here hl => ?_⟩
  have first := hp.shallow here hl
  simp only [Traced.bind]
  cases run : p.parser here with
  | ok value there =>
    have second := (hq value).shallow there (left here value there hl run)
    dsimp only
    omega
  | fail | exhausted =>
    dsimp only
    omega

theorem Within.bind (hp : p.Within n a) (hq : ∀ value, (q value).Within n b) :
    (p.bind q).Within n (max a b + 1) :=
  hp.bind_of hq fun _ _ _ hl run => (hp.onward.ok run).length_le.trans_lt hl

/-- Less is left behind what was read. -/
theorem Within.behind (hp : p.Within (n + 1) a) (consumes : p.parser.Consumes)
    (hq : ∀ value, (q value).Within n b) : (p.bind q).Within (n + 1) (max a b + 1) := by
  refine hp.bind_of hq fun here value there hl run => ?_
  have shorter := (hp.onward.ok run).length_lt (consumes here value there run)
  omega

end Bind

theorem Within.map (h : p.Within n a) (f : T → U) : (p.map f).Within n (max a 1 + 1) :=
  h.bind fun value => within_read (Parser.halts_pure (f value)) (Parser.onward_pure (f value)) n

theorem Within.skip {q : Traced R U} (hp : p.Within n a) (hq : q.Within n b) :
    (p.skip q).Within n (max a (max b 1 + 1) + 1) :=
  hp.bind fun value => hq.map fun _ => value

theorem Within.label (h : p.Within n a) (expected : String) :
    (p.label expected).Within n (a + 1) :=
  ⟨h.onward.label expected, h.halts.label expected,
    fun here hl => Nat.succ_le_succ (h.shallow here hl)⟩

theorem Within.enter (h : p.Within n a) (rule : R) (deferred : Bool) :
    (enter rule deferred p).Within n (a + 1) :=
  ⟨h.onward, h.halts, fun here hl => Nat.succ_le_succ (h.shallow here hl)⟩

theorem Within.choice {ps : List (Traced R T)} (h : ∀ p ∈ ps, p.Within n a) :
    (choice ps).Within n (a + 1) := by
  refine ⟨Parser.onward_choice (by simpa using fun p hp => (h p hp).onward),
    Parser.haltsBelow_tryEach (by simpa using fun p hp => (h p hp).halts) none,
    fun here hl => Nat.succ_le_succ (List.max_le_of_forall_le _ a ?_)⟩
  refine List.forall_mem_map.2 fun p hp => ?_
  exact (h p ((tried_sublist here ps).mem hp)).shallow here hl

theorem Within.many (h : p.Within n a) : p.many.Within n (a + 1) := by
  refine ⟨h.onward.many, Parser.haltsBelow_many h.halts h.onward.forward,
    fun here hl => Nat.succ_le_succ (List.max_le_of_forall_le _ a ?_)⟩
  refine List.forall_mem_map.2 fun place hv => ?_
  exact h.shallow place ((reaches_of_visits h.onward hv).length_le.trans_lt hl)

theorem Within.many1 (h : p.Within n a) : p.many1.Within n (a + 3) :=
  (h.bind fun value => h.many.map (value :: ·)).mono (by omega)

section Fix

variable {body : Traced R T → Traced R T} {round : Nat}

theorem within_unroll
    (h : ∀ n a inner, inner.Within n a → (body inner).Within (n + 1) (a + round))
    (levels : Nat) : (unroll body levels).Within levels (round * levels) := by
  induction levels with
  | zero => exact ⟨nofun, nofun, nofun⟩
  | succ levels ih => exact h levels _ _ ih

theorem within_fix
    (h : ∀ n a inner, inner.Within n a → (body inner).Within (n + 1) (a + round))
    (n : Nat) : (fix body).Within n (round * n) := by
  have levels (here : Cursor) := within_unroll h (here.rest.length + 1)
  refine ⟨fun here => (levels here).onward here,
    fun here _ => (levels here).halts here (Nat.lt_succ_self _), fun here hl => ?_⟩
  exact ((levels here).shallow here (Nat.lt_succ_self _)).trans (Nat.mul_le_mul_left round hl)

end Fix

end Traced

end ParticlePatterns.Parsing
