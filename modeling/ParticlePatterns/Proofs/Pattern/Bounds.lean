import Mathlib
import ParticlePatterns.Proofs.Pattern.Currying

/-!
# Bounds of varied numbers

A number that varies over a batch or at random stays between the numbers it is made of. A range
goes from one of its ends to the other by a ratio between 0 and 1, whether this is the place in
the batch or a draw, and a choice takes one of its alternatives. Angles are the only numbers that
a term has without having them written in it.
-/

set_option autoImplicit false

namespace ParticlePatterns

open Exact (real)

variable {lo hi : ℝ}

section Ratios

def Exact.IsRatio (a : Exact) : Prop :=
  ∃ t ∈ Set.Icc (0 : ℝ) 1, a = real t

theorem Rng.isRatio_unit (r : Rng) : (r.unit : Exact × Rng).1.IsRatio := by
  have below : (r.next.1 >>> 11).toNat < 2 ^ 53 := by
    rw [UInt64.toNat_shiftRight, Nat.shiftRight_eq_div_pow]
    exact Nat.div_lt_of_lt_mul (UInt64.toNat_lt _)
  have denominator : ((1 <<< 53 : Nat) : ℝ) = 2 ^ 53 := by
    rw [Nat.one_shiftLeft, Nat.cast_pow, Nat.cast_ofNat]
  refine ⟨(r.next.1 >>> 11).toNat / 2 ^ 53, ⟨by positivity, ?_⟩, ?_⟩
  · rw [div_le_one (by positivity)]
    exact_mod_cast below.le
  · show real (r.next.1 >>> 11).toNat / real (1 <<< 53 : Nat) = _
    rw [denominator, Exact.real_div_real (by positivity)]

namespace Gen

variable {s : Sibling}

theorem share_eq (h : 2 ≤ s.total) :
    (share s : Exact) = real (s.index / ((s.total - 1 : ℕ) : ℝ)) := by
  have others : ((s.total - 1 : ℕ) : ℝ) ≠ 0 := Nat.cast_ne_zero.2 (by omega)
  rw [share, if_neg (by omega)]
  exact Exact.real_div_real others

theorem isRatio_share (h : s.index < s.total) : (share s : Exact).IsRatio := by
  by_cases alone : s.total ≤ 1
  · refine ⟨1 / 2, by norm_num, ?_⟩
    rw [share, if_pos alone, Exact.one_eq_real, Exact.ofNat_eq_real,
      Exact.real_div_real two_ne_zero]
  · refine ⟨_, ⟨by positivity, ?_⟩, share_eq (by omega)⟩
    exact div_le_one_of_le₀ (Nat.cast_le.2 (by omega)) (Nat.cast_nonneg _)

end Gen

theorem Scalar.lerp_real (a b t : ℝ) :
    Scalar.lerp (real a) (real b) (real t) = real (a * (1 - t) + b * t) := by
  simp [Scalar.lerp]

theorem Exact.IsRatio.lerp {ratio : Exact} (h : ratio.IsRatio) {a b : ℝ}
    (ha : a ∈ Set.Icc lo hi) (hb : b ∈ Set.Icc lo hi) :
    ∃ v ∈ Set.Icc lo hi, Scalar.lerp (real a) (real b) ratio = real v := by
  obtain ⟨t, ⟨below, above⟩, rfl⟩ := h
  have inside := convex_Icc lo hi ha hb (sub_nonneg.2 above) below (sub_add_cancel 1 t)
  refine ⟨_, inside, ?_⟩
  rw [Scalar.lerp_real, smul_eq_mul, smul_eq_mul, mul_comm a, mul_comm b]

end Ratios

namespace Gen

def Within (lo hi : ℝ) (g : Gen Exact Exact) : Prop :=
  ∀ s r, s.index < s.total → ∃ v ∈ Set.Icc lo hi, ∃ after, g s r = .ok (real v, after)

variable {g low high : Gen Exact Exact} {gens : List (Gen Exact Exact)}

theorem within_constant {x : ℝ} (h : x ∈ Set.Icc lo hi) : (constant (real x)).Within lo hi :=
  fun _ r _ => ⟨x, h, r, rfl⟩

theorem within_select {mode : Mode} (hn : gens ≠ []) (h : ∀ g ∈ gens, g.Within lo hi) :
    (select mode gens).Within lo hi := by
  intro s r member
  obtain ⟨g, hg, drawn, same⟩ := exists_select hn mode s r
  rw [same]
  exact h g hg s drawn member

theorem range_each {s : Sibling} {r r' r'' : Rng} {a b : Exact} (hl : low s r = .ok (a, r'))
    (hh : high s r' = .ok (b, r'')) :
    range .each low high s r = .ok (Scalar.lerp a b (share s), r'') := by
  simp only [range, bind, hl, hh]

theorem range_random {s : Sibling} {r r' r'' : Rng} {a b : Exact} (hl : low s r = .ok (a, r'))
    (hh : high s r' = .ok (b, r'')) :
    range .random low high s r = .ok (Scalar.lerp a b r''.unit.1, r''.unit (α := Exact).2) := by
  simp only [range, bind, hl, hh]

theorem Within.range {mode : Mode} (hl : low.Within lo hi) (hh : high.Within lo hi) :
    (range mode low high).Within lo hi := by
  intro s r member
  obtain ⟨a, ha, r', madeLow⟩ := hl s r member
  obtain ⟨b, hb, r'', madeHigh⟩ := hh s r' member
  cases mode with
  | each =>
    obtain ⟨v, hv, same⟩ := (isRatio_share member).lerp ha hb
    exact ⟨v, hv, _, by rw [range_each madeLow madeHigh, same]⟩
  | random =>
    obtain ⟨v, hv, same⟩ := r''.isRatio_unit.lerp ha hb
    exact ⟨v, hv, _, by rw [range_random madeLow madeHigh, same]⟩

end Gen

inductive Meaning.Between (lo hi : ℝ) : Meaning Exact → Prop
  | number {gen : Gen Exact Exact} : gen.Within lo hi → Between lo hi (.number gen)
  | easing {easing : Easing} : Between lo hi (.easing easing)
  | model {model : Model} : Between lo hi (.model model)
  | behavior {gen : Gen Exact (Behavior Exact)} : Between lo hi (.behavior gen)
  | operator {op : Operator} : Between lo hi (.operator op)
  | choice {mode : Mode} {alternatives : List (Meaning Exact)} : alternatives ≠ [] →
      (∀ m ∈ alternatives, Between lo hi m) → Between lo hi (.choice mode alternatives)

inductive Term.Between (lo hi : ℝ) : Term Exact → Prop
  | number {x : ℝ} : x ∈ Set.Icc lo hi → Between lo hi (.number (real x))
  | symbol {name : String} : name ≠ Bracket.each.angle → name ≠ Bracket.random.angle →
      Between lo hi (.symbol name)
  | list {ts : List (Term Exact)} : (∀ t ∈ ts, Between lo hi t) → Between lo hi (.list ts)

namespace Meaning

variable {m : Meaning Exact}

theorem Between.ask (h : m.Between lo hi) :
    ∀ {gen : Gen Exact Exact}, m.ask numbers = .ok gen → gen.Within lo hi := by
  induction h with
  | @operator op =>
    -- without arguments an operator is a behavior if it is anything
    intro gen asked
    rw [Meaning.ask] at asked
    cases op <;> cases asked
  | choice stocked _ ih =>
    intro gen asked
    rw [ask_choice] at asked
    obtain ⟨gens, found, rfl⟩ := map_eq_ok.1 asked
    exact Gen.within_select (ne_nil_of_mapM found stocked)
      (forall_of_mapM found fun m hm gen => ih m hm)
  | number within =>
    intro gen asked
    simp only [Meaning.ask] at asked
    cases asked
    exact within
  | easing | model | behavior =>
    intro gen asked
    simp only [Meaning.ask] at asked
    cases asked

end Meaning

variable {args : List (Argument Exact)}

theorem Operator.apply_between {op : Operator}
    (ha : ∀ a ∈ args, ∀ v, a.meaning.get = .ok v → v.Between lo hi) {m : Meaning Exact}
    (h : op.apply args = .ok m) : m.Between lo hi := by
  unfold Operator.apply at h
  split at h
  case h_10 mode first rest =>
    obtain ⟨alternatives, found, h⟩ := bind_eq_ok.1 h
    cases h
    exact .choice (ne_nil_of_mapM found (by simp)) (forall_of_mapM found ha)
  case h_11 mode low high =>
    obtain ⟨x, hx, h⟩ := bind_eq_ok.1 h
    obtain ⟨y, hy, h⟩ := bind_eq_ok.1 h
    cases h
    obtain ⟨v, hv, askedLow⟩ := bind_eq_ok.1 hx
    obtain ⟨w, hw, askedHigh⟩ := bind_eq_ok.1 hy
    exact .number (((ha low (by simp) v hv).ask askedLow).range
      ((ha high (by simp) w hw).ask askedHigh))
  case h_12 => cases h
  -- every other operator makes a behavior
  all_goals
    repeat obtain ⟨_, -, h⟩ := bind_eq_ok.1 h
    cases h
    exact .behavior

theorem Meaning.Between.withArguments {m : Meaning Exact} (h : m.Between lo hi)
    (ha : ∀ a ∈ args, ∀ v, a.meaning.get = .ok v → v.Between lo hi) :
    ∀ {after : Meaning Exact}, m.withArguments args = .ok after → after.Between lo hi := by
  cases args with
  | nil =>
    intro after made
    rw [withArguments_nil] at made
    split at made
    next op =>
      rw [← Operator.apply_nil] at made
      exact Operator.apply_between (by simp) made
    · cases made
      exact h
  | cons first rest =>
    induction h with
    | operator =>
      intro after made
      rw [Meaning.withArguments] at made
      exact Operator.apply_between ha made
    | choice stocked _ ih =>
      intro after made
      rw [Meaning.withArguments, withArgumentsAll_eq_mapM] at made
      obtain ⟨curried, found, rfl⟩ := map_eq_ok.1 made
      exact .choice (ne_nil_of_mapM found stocked)
        (forall_of_mapM found fun m hm after => ih m hm)
    | number | easing | model =>
      intro after made
      rw [Meaning.withArguments] at made
      obtain ⟨body, -, rfl⟩ := map_eq_ok.1 made
      exact .behavior
    | behavior =>
      intro after made
      rw [Meaning.withArguments] at made
      cases made

theorem Builtin.find_between {name : String} {m : Meaning Exact}
    (he : name ≠ Bracket.each.angle) (hr : name ≠ Bracket.random.angle)
    (h : Builtin.find? name = some m) : m.Between lo hi := by
  obtain ⟨⟨key, value⟩, found, rfl⟩ := Option.map_eq_some_iff.1 h
  have named : key = name := by simpa using List.find?_some found
  have listed := List.mem_of_find?_eq_some found
  simp only [Builtin.table, List.mem_append, List.mem_map, List.mem_cons, List.not_mem_nil,
    or_false, Prod.mk.injEq] at listed
  obtain (((⟨model, _, -, rfl⟩ | ⟨easing, _, -, rfl⟩) | ⟨-, rfl⟩) | ⟨op, _, -, rfl⟩) |
    ⟨angle, -⟩ | ⟨angle, -⟩ := listed
  · exact .model
  · exact .easing
  · exact .behavior
  · exact .operator
  · exact absurd (named.symm.trans angle) he
  · exact absurd (named.symm.trans angle) hr

namespace Term

theorem Between.meaning {t : Term Exact} (h : t.Between lo hi) :
    ∀ {m : Meaning Exact}, t.meaning = .ok m → m.Between lo hi := by
  induction h with
  | number inside =>
    intro m made
    cases made
    exact .number (Gen.within_constant inside)
  | symbol he hr =>
    intro m made
    rw [Term.meaning] at made
    split at made
    next found =>
      cases made
      exact Builtin.find_between he hr found
    · cases made
  | @list ts _ ih =>
    intro m made
    cases ts with
    | nil => cases made
    | cons head rest =>
      rw [Term.meaning] at made
      split at made
      next first found =>
        refine (ih head (by simp) found).withArguments (fun a ha v hv => ?_) made
        obtain ⟨t, ht, same⟩ := meaning_of_mem_arguments ha
        exact ih t (List.mem_cons_of_mem _ ht) (same ▸ hv)
      · cases made

/-- A range that compiles goes from what the one end makes to what the other makes. -/
theorem exists_of_asked_range (mode : Mode) {low high : Term Exact} {gen : Gen Exact Exact}
    (h : (list [symbol mode.bracket.range, low, high]).asked Meaning.numbers = .ok gen) :
    ∃ a b, low.asked Meaning.numbers = .ok a ∧ high.asked Meaning.numbers = .ok b ∧
      gen = .range mode a b := by
  have operator : (symbol mode.bracket.range : Term Exact).meaning =
      .ok (.operator (.range mode)) := by
    cases mode <;> rfl
  rw [asked_list, operator] at h
  obtain ⟨_, ⟨⟩, h⟩ := bind_eq_ok.1 h
  obtain ⟨m, made, asked⟩ := bind_eq_ok.1 h
  rw [Meaning.withArguments] at made
  obtain ⟨a, ha, made⟩ := bind_eq_ok.1 made
  obtain ⟨b, hb, made⟩ := bind_eq_ok.1 made
  cases made
  have direct : Meaning.numbers.direct (.number (.range mode a b)) = .ok gen := by
    simpa only [Meaning.ask] using asked
  exact ⟨a, b, ha, hb, (Except.ok.inj direct).symm⟩

end Term

theorem Gen.range_ends {low high : Gen Exact Exact} {s : Sibling} {r r' r'' : Rng} {x y : ℝ}
    (several : 2 ≤ s.total) (hl : low s r = .ok (real x, r'))
    (hh : high s r' = .ok (real y, r'')) :
    (s.index = 0 → range .each low high s r = .ok (real x, r'')) ∧
      (s.index + 1 = s.total → range .each low high s r = .ok (real y, r'')) := by
  rw [range_each hl hh, share_eq several, Scalar.lerp_real]
  constructor
  · intro first
    simp [first]
  · intro last
    have others : ((s.total - 1 : ℕ) : ℝ) ≠ 0 := Nat.cast_ne_zero.2 (by omega)
    have whole : (s.index : ℝ) / ((s.total - 1 : ℕ) : ℝ) = 1 := by
      rw [← last, Nat.add_sub_cancel, div_self]
      rwa [← last, Nat.add_sub_cancel] at others
    simp [whole]

/-- A term that is a number, made of numbers between two bounds in any way but with angles, makes
numbers between these bounds for every member of a batch and from every random state. A range
over a batch of several gives the number at its one end to the first member, and that at its other
end to the last. -/
theorem variation_within (lo hi : ℝ) :
    (∀ (t : Term Exact) gen, t.Between lo hi → t.asked Meaning.numbers = .ok gen →
      gen.Within lo hi) ∧
    ∀ (low high : Term Exact) gen,
      (Term.list [.symbol Bracket.each.range, low, high]).asked Meaning.numbers = .ok gen →
        ∃ a b, low.asked Meaning.numbers = .ok a ∧ high.asked Meaning.numbers = .ok b ∧
          ∀ s r r' r'' x y, 2 ≤ s.total → a s r = .ok (real x, r') → b s r' = .ok (real y, r'') →
            (s.index = 0 → gen s r = .ok (real x, r'')) ∧
              (s.index + 1 = s.total → gen s r = .ok (real y, r'')) := by
  refine ⟨fun t gen between asked => ?_, fun low high gen asked => ?_⟩
  · obtain ⟨m, hm, asked⟩ := bind_eq_ok.1 asked
    exact (between.meaning hm).ask asked
  · obtain ⟨a, b, ha, hb, rfl⟩ := Term.exists_of_asked_range .each asked
    exact ⟨a, b, ha, hb, fun s r r' r'' x y several hl hh => Gen.range_ends several hl hh⟩

/-- A range that is spread or drawn by position, from another range to a number in brackets. -/
theorem variation_within_nested :
    let inner : Term Exact := .list [.symbol "each-range", .number (real 1), .number (real 3)]
    let t : Term Exact := .list [.list [.symbol "each-choice", .symbol "each-range",
      .symbol "random-range"], inner, .list [.number (real 4)]]
    (t.Between 1 4 ∧ ∃ gen, t.asked Meaning.numbers = .ok gen ∧ gen.Within 1 4) ∧
      ∃ gen, inner.asked Meaning.numbers = .ok gen ∧ ∀ r,
        gen ⟨0, 2⟩ r = .ok (real 1, r) ∧ gen ⟨1, 2⟩ r = .ok (real 3, r) := by
  intro inner t
  have number : ∀ x : ℝ, x ∈ Set.Icc 1 4 → (Term.number (real x)).Between 1 4 :=
    fun x inside => .number inside
  have between : t.Between 1 4 := by
    refine .list ?_
    simp only [List.forall_mem_cons, List.not_mem_nil, false_implies, implies_true, and_true]
    refine ⟨.list ?_, .list ?_, .list ?_⟩
    · simp only [List.forall_mem_cons, List.not_mem_nil, false_implies, implies_true, and_true]
      exact ⟨.symbol (by decide) (by decide), .symbol (by decide) (by decide),
        .symbol (by decide) (by decide)⟩
    · simp only [List.forall_mem_cons, List.not_mem_nil, false_implies, implies_true, and_true]
      exact ⟨.symbol (by decide) (by decide), number 1 (by norm_num), number 3 (by norm_num)⟩
    · simpa using number 4 (by norm_num)
  obtain ⟨gen, compiled⟩ : ∃ gen, t.asked Meaning.numbers = .ok gen := ⟨_, rfl⟩
  obtain ⟨gen', compiled'⟩ : ∃ gen, inner.asked Meaning.numbers = .ok gen := ⟨_, rfl⟩
  refine ⟨⟨between, gen, compiled, (variation_within 1 4).1 t gen between compiled⟩,
    gen', compiled', fun r => ?_⟩
  obtain ⟨a, b, ha, hb, ends⟩ := (variation_within 1 4).2 _ _ gen' compiled'
  cases ha
  cases hb
  exact ⟨(ends ⟨0, 2⟩ r r r 1 3 le_rfl rfl rfl).1 rfl,
    (ends ⟨1, 2⟩ r r r 1 3 le_rfl rfl rfl).2 rfl⟩

end ParticlePatterns
