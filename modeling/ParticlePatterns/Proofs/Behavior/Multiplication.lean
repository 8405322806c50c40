import ParticlePatterns.Proofs.Behavior.Sweeps

/-!
# Multiplication

A multiplication raises its operand to the share that comes in each window, so that the factors
of all windows make up the operand. This is so for operands that are not negative. A negative
operand has no power of a share in between 0 and 1, so the property is undefined as soon as a
window ends at such a share.
-/

set_option autoImplicit false

namespace ParticlePatterns

open Exact (real)

namespace Exact

@[simp] theorem undefined_mul (a : Exact) : undefined * a = undefined := rfl

@[simp] theorem mul_undefined (a : Exact) : a * undefined = undefined := by
  cases a <;> rfl

theorem infinite_mul_real {x : ℝ} (h : 0 ≤ x) (n : Bool) :
    infinite n * real x = if x = 0 then undefined else infinite n := by
  show (if x = 0 then undefined else infinite (decide (x < 0) ^^ n)) = _
  simp [not_lt_of_ge h]

theorem mul_real_one (a : Exact) : a * real 1 = a := by
  match a with
  | real x => rw [real_mul_real, mul_one]
  | infinite n => rw [infinite_mul_real zero_le_one, if_neg one_ne_zero]
  | undefined => rfl

/-- Factors that are not negative can be multiplied first, whatever they are factors of. -/
theorem mul_real_mul_real (a : Exact) {x y : ℝ} (hx : 0 ≤ x) (hy : 0 ≤ y) :
    a * real x * real y = a * real (x * y) := by
  match a with
  | real z => simp only [real_mul_real, mul_assoc]
  | infinite n =>
    rw [infinite_mul_real hx, infinite_mul_real (mul_nonneg hx hy)]
    by_cases zero : x = 0
    · simp [zero]
    · simp [zero, infinite_mul_real hy]
  | undefined => rfl

theorem pow_real_zero (a : Exact) : a.pow (real 0) = real 1 :=
  if_pos (.inl rfl)

/-- The power of real numbers, except for fractional ones of what is negative and for negative
ones of zero. -/
theorem pow_real {x k : ℝ} (hx : 0 ≤ x ∨ ∃ m : ℤ, k = m) (hk : 0 ≤ k) :
    (real x).pow (real k) = real (x ^ k) := by
  have whole : ¬(x < 0 ∧ ∀ m : ℤ, k ≠ m) := by
    rintro ⟨negative, fractional⟩
    obtain nonneg | ⟨m, same⟩ := hx
    · exact absurd negative (not_lt_of_ge nonneg)
    · exact fractional m same
  unfold pow
  split
  next trivial =>
    obtain zero | one := trivial
    · cases zero
      rw [Real.rpow_zero]
    · cases one
      rw [Real.one_rpow]
  next =>
    simp only
    rw [if_neg whole, if_neg fun h => not_lt_of_ge hk h.2]

/-- A negative number has no power between the zeroth and the first. -/
theorem pow_eq_undefined {x k : ℝ} (hx : x < 0) (h0 : 0 < k) (h1 : k < 1) :
    (real x).pow (real k) = undefined := by
  have fractional : ∀ m : ℤ, k ≠ m := by
    rintro m rfl
    have above : 0 < m := Int.cast_pos.1 h0
    have below : m < 1 := by exact_mod_cast h1
    omega
  have neither : ¬(real k = real 0 ∨ real x = real 1) := by
    rintro (zero | one)
    · exact h0.ne' (real.inj zero)
    · exact (hx.trans one_pos).ne (real.inj one)
  rw [pow, if_neg neither]
  exact if_pos ⟨hx, fractional⟩

theorem pow_real_one (x : ℝ) : (real x).pow (real 1) = real x := by
  rw [pow_real (.inr ⟨1, Int.cast_one.symm⟩) zero_le_one, Real.rpow_one]

/-- From one power of a number to a higher one there is a factor, if the number has both. -/
theorem mul_pow_mul_pow {x k l : ℝ} (a : Exact) (hk : 0 ≤ k) (hkl : k ≤ l)
    (h : 0 ≤ x ∨ (k = 0 ∨ k = 1) ∧ (l = 0 ∨ l = 1)) :
    a * (real x).pow (real k) * (real x).pow (real (l - k)) = a * (real x).pow (real l) := by
  obtain nonneg | ⟨rfl | rfl, rfl | rfl⟩ := h
  · have part := sub_nonneg.2 hkl
    rw [pow_real (.inl nonneg) hk, pow_real (.inl nonneg) part,
      pow_real (.inl nonneg) (hk.trans hkl),
      mul_real_mul_real a (Real.rpow_nonneg nonneg k) (Real.rpow_nonneg nonneg _),
      ← Real.rpow_add_of_nonneg nonneg hk part, add_sub_cancel]
  · rw [sub_zero, pow_real_zero, mul_real_one, mul_real_one]
  · rw [sub_zero, pow_real_zero, mul_real_one]
  · exact absurd hkl (not_le_of_gt one_pos)
  · rw [sub_self, pow_real_zero, mul_real_one]

end Exact

theorem Sprite.set_get {α : Type} (s : Sprite α) (p : Property) : s.set p (s.get p) = s := by
  cases p <;> rfl

namespace Effect

variable {p : Property} {x n stop : ℝ} {easing : Easing} {ws : List (Window Exact)}
  {stage : Stage Exact}

theorem memoryless_multiply (operand initial : Exact) :
    (modify p .multiply operand initial).Memoryless :=
  fun _ _ _ _ => rfl

theorem multiply_apply (s : Sprite Exact) (a b : ℝ) :
    ((modify p .multiply (real x) 0).apply ⟨easing, real n, none⟩ false ⟨real a, real b⟩ s).2 =
      s.set p (s.get p * (real x).pow (real (easing.realShare n b - easing.realShare n a))) := by
  have factor : (⟨easing, real n, none⟩ : Timing Exact).delta ⟨real a, real b⟩ =
      real (easing.realShare n b - easing.realShare n a) := Timing.delta_real rfl a b
  simp only [Effect.apply, Sprite.modify, Modification.apply, factor]
  rfl

/-- The property is multiplied by a power that grows with the share. -/
theorem sweep_multiply (hw : Spans 0 stop ws)
    (hx : 0 ≤ x ∨ ∀ w ∈ ws, ¬easing.Fractional (real n) w) :
    (Behavior.leaf ⟨easing, real n, none⟩ (modify p .multiply (real x) 0)).sweep ws stage =
      .ok { stage with
        sprite := stage.sprite.set p
          (stage.sprite.get p * (real x).pow (real (easing.realShare n stop))) } := by
  refine (memoryless_multiply (real x) 0).sweep_eq
    (fun k => stage.sprite.set p (stage.sprite.get p * (real x).pow (real k))) ?_ hw hx ?_
  · intro a b later kind
    rw [multiply_apply, Sprite.get_set, Sprite.set_set,
      Exact.mul_pow_mul_pow _ (easing.realShare_nonneg n a) (easing.realShare_mono n later) kind]
  · rw [Exact.pow_real_zero, Exact.mul_real_one, Sprite.set_get]

/-- A negative operand loses the property once a share in between has come. -/
theorem sweep_multiply_lost (hw : Spans 0 stop ws) (hx : x < 0)
    (h : ∃ w ∈ ws, easing.Fractional (real n) w) :
    (Behavior.leaf ⟨easing, real n, none⟩ (modify p .multiply (real x) 0)).sweep ws stage =
      .ok { stage with sprite := stage.sprite.set p .undefined } := by
  let good (now : ℝ) (rest : List (Window Exact)) (s : Sprite Exact) : Prop :=
    s = stage.sprite.set p .undefined ∨ (s = stage.sprite ∧ easing.realShare n now = 0 ∧
      ∃ w ∈ rest, easing.Fractional (real n) w)
  have awaits : (⟨easing, real n, none⟩ : Timing Exact).Awaits 0 := .inl ⟨rfl, rfl⟩
  have start : good 0 ws stage.sprite := .inr ⟨rfl, easing.realShare_zero n, h⟩
  have step : (modify p .multiply (real x) 0).Preserves easing n stop good := by
    rintro now mid rest s later cover (rfl | ⟨same, nothing, w, hmem, between⟩)
    · rw [multiply_apply, Sprite.get_set, Sprite.set_set, Exact.undefined_mul]
      exact .inl rfl
    · subst same
      rw [multiply_apply, nothing, sub_zero]
      by_cases first : easing.Fractional (real n) ⟨real now, real mid⟩
      · obtain ⟨some, notAll⟩ := Easing.fractional_iff.1 first
        rw [Exact.pow_eq_undefined hx some notAll, Exact.mul_undefined]
        exact .inl rfl
      · have hrest : w ∈ rest := (List.mem_cons.1 hmem).resolve_left fun e => first (e ▸ between)
        obtain ⟨a, b, behind, order, rfl⟩ := cover.exists_of_mem hrest
        have notAll := (Easing.fractional_iff.1 between).2
        have still : easing.realShare n mid = 0 :=
          (Easing.share_of_not_fractional first).resolve_right fun all =>
            notAll.not_ge (all ▸ easing.realShare_mono n (behind.trans order))
        rw [still, Exact.pow_real_zero, Exact.mul_real_one, Sprite.set_get]
        exact .inr ⟨rfl, still, _, hrest, between⟩
  obtain ⟨sprite, run, rfl | ⟨-, -, w, hmem, -⟩⟩ :=
    (memoryless_multiply (real x) 0).exists_sweep step awaits hw start
  · exact run
  · simp at hmem

end Effect

/-- Up to any time and in any windows, a multiplication by what is not negative makes the property
the product with the operand to the power of the share; once the lifespan is over this is the
operand itself. So does a multiplication by what is negative as long as no window ends while the
share is in between; after such a window the property is undefined for good. -/
theorem multiplication_telescopes (p : Property) (x n : ℝ) (easing : Easing) {now : ℝ}
    {ws : List (Window Exact)} (hw : Spans 0 now ws) (stage : Stage Exact) :
    let b := (Behavior.modify p .multiply (real x)).withTiming ⟨easing, real n, none⟩
    let factor := Scalar.pow (real x) (easing.progress (real now) (real n))
    ∃ sprite, b.sweep ws stage = .ok { stage with sprite } ∧
      ((0 ≤ x ∨ ∀ w ∈ ws, ¬easing.Fractional (real n) w) →
        sprite = stage.sprite.set p (stage.sprite.get p * factor)) ∧
      (0 < now → n ≤ now → factor = real x) ∧
      (x < 0 → (∃ w ∈ ws, easing.Fractional (real n) w) →
        sprite = stage.sprite.set p .undefined) := by
  intro b factor
  have power : factor = (real x).pow (real (easing.realShare n now)) :=
    congrArg (real x).pow (Timing.progress_real (t := ⟨easing, real n, none⟩) rfl now)
  have whole : 0 < now → n ≤ now → factor = real x := by
    intro later past
    rw [power, easing.realShare_of_le past later, Exact.pow_real_one]
  by_cases defined : 0 ≤ x ∨ ∀ w ∈ ws, ¬easing.Fractional (real n) w
  · refine ⟨_, Effect.sweep_multiply hw defined, fun _ => by rw [power], whole, ?_⟩
    intro hx between
    obtain ⟨w, hmem, between⟩ := between
    exact absurd between (defined.resolve_left (not_le_of_gt hx) w hmem)
  · have ⟨negative, between⟩ : x < 0 ∧ ∃ w ∈ ws, easing.Fractional (real n) w := by
      simpa only [not_or, not_le, not_forall, not_not, exists_prop] using defined
    exact ⟨_, Effect.sweep_multiply_lost hw negative between, fun h => absurd h defined, whole,
      fun _ _ => rfl⟩

/-- Four times as opaque, in two windows of which the first one ends halfway. -/
theorem multiplication_telescopes_halved :
    let b := (Behavior.modify .opacity .multiply (real 4)).withTiming ⟨.linear, real 2, none⟩
    let ws : List (Window Exact) := [⟨real 0, real 1⟩, ⟨real 1, real 3⟩]
    let stage : Stage Exact := ⟨.initial, .ofSeed 1, #[]⟩
    Spans 0 3 ws ∧ ∃ sprite, b.sweep ws stage = .ok { stage with sprite } ∧
      sprite.opacity = real 4 := by
  intro b ws stage
  have cover : Spans 0 3 ws := ⟨1, by norm_num, rfl, 3, by norm_num, rfl, rfl⟩
  obtain ⟨sprite, run, defined, whole, -⟩ :=
    multiplication_telescopes .opacity 4 2 .linear cover stage
  refine ⟨cover, sprite, run, ?_⟩
  rw [defined (.inl (by norm_num)), whole (by norm_num) (by norm_num)]
  show (1 : Exact) * real 4 = real 4
  rw [Exact.one_eq_real, Exact.real_mul_real, one_mul]

/-- A change of sign comes in one window, but not in two that are cut halfway. -/
theorem multiplication_cut_halfway :
    let b := (Behavior.modify .opacity .multiply (real (-1))).withTiming ⟨.linear, real 2, none⟩
    let ws : List (Window Exact) := [⟨real 0, real 2⟩]
    let ws' : List (Window Exact) := [⟨real 0, real 1⟩, ⟨real 1, real 2⟩]
    let stage : Stage Exact := ⟨.initial, .ofSeed 1, #[]⟩
    Spans 0 2 ws ∧ Spans 0 2 ws' ∧ ∃ sprite sprite' : Sprite Exact,
      b.sweep ws stage = .ok { stage with sprite } ∧ sprite.opacity = real (-1) ∧
      b.sweep ws' stage = .ok { stage with sprite := sprite' } ∧
      sprite'.opacity = .undefined := by
  intro b ws ws' stage
  have half : Easing.linear.realShare 2 1 = 1 / 2 :=
    Easing.realShare_linear two_pos zero_le_one one_le_two
  have all : Easing.linear.realShare 2 2 = 1 := Easing.linear.realShare_of_le le_rfl two_pos
  have cover : Spans 0 2 ws := ⟨2, by norm_num, rfl, rfl⟩
  have cover' : Spans 0 2 ws' := ⟨1, by norm_num, rfl, 2, by norm_num, rfl, rfl⟩
  have whole : ∀ w ∈ ws, ¬Easing.linear.Fractional (real 2) w := by
    simp [ws, Easing.fractional_iff, all]
  have between : ∃ w ∈ ws', Easing.linear.Fractional (real 2) w := by
    refine ⟨_, List.mem_cons_self, Easing.fractional_iff.2 ?_⟩
    rw [half]
    norm_num
  refine ⟨cover, cover', _, _, Effect.sweep_multiply cover (.inr whole), ?_,
    Effect.sweep_multiply_lost cover' (by norm_num) between, rfl⟩
  rw [all, Exact.pow_real_one]
  show (1 : Exact) * real (-1) = real (-1)
  rw [Exact.one_eq_real, Exact.real_mul_real, one_mul]

end ParticlePatterns
