import ParticlePatterns.Behavior.Timing
import ParticlePatterns.Proofs.Number.Sign

/-!
# Rounded numbers

Machine numbers are compared like numbers, unless one of them is undefined, and rounding keeps their
order. So a difference does not become less when more is subtracted from, no number becomes greater
when something is taken away from it, and sums that are not negative may overflow but do not get
lost. Exact numbers keep to this as well, without any rounding.
-/

set_option autoImplicit false

namespace ParticlePatterns

class Scalar.Compared (α : Type) [Scalar α] : Prop where
  defined {x y : α} : x ≤ y → x ≤ x ∧ y ≤ y
  le_trans {x y z : α} : x ≤ y → y ≤ z → x ≤ z
  le_total {x y : α} : x ≤ x → y ≤ y → x ≤ y ∨ y ≤ x
  lt_iff {x y : α} : x < y ↔ x ≤ y ∧ ¬y ≤ x

class Scalar.Rounded (α : Type) [Scalar α] : Prop extends Scalar.Signed α, Scalar.Compared α where
  le_infinity {x : α} : x ≤ x → x ≤ Scalar.infinity
  eq_infinity {x : α} : Scalar.infinity ≤ x → x = Scalar.infinity
  neg_infinity_lt_zero : -Scalar.infinity < (0 : α)
  zero_lt_infinity : (0 : α) < Scalar.infinity
  neg_one_lt_zero : (-1 : α) < 0
  zero_lt_one : (0 : α) < 1
  tolerance_pos : (0 : α) < 1 / 1000000000
  mul_nonneg {x y : α} : 0 < x → 0 < y → 0 ≤ x * y
  sub_self {x : α} : Scalar.IsFinite x → x - x = 0
  sub_le_sub {x y z : α} : x ≤ y → Scalar.IsFinite z → x - z ≤ y - z
  sub_le {x y : α} : Scalar.IsFinite x → 0 ≤ y → x - y ≤ x
  /-- What is infinite stays so, or becomes undefined. -/
  infinity_sub {x : α} : (Scalar.infinity - x) ≤ (Scalar.infinity - x) →
    Scalar.infinity - x = Scalar.infinity
  infinity_sub_infinity :
    ¬(Scalar.infinity - Scalar.infinity : α) ≤ Scalar.infinity - Scalar.infinity
  le_add {x y : α} : 0 ≤ x → 0 ≤ y → x ≤ x + y ∧ y ≤ x + y

/-- Numbers are in order if they have ranks that are. -/
theorem Scalar.compared_of_rank {α L : Type} [Scalar α] [LinearOrder L] {rank : α → Option L}
    (le : ∀ x y : α, x ≤ y ↔ ∃ a ∈ rank x, ∃ b ∈ rank y, a ≤ b)
    (lt : ∀ x y : α, x < y ↔ ∃ a ∈ rank x, ∃ b ∈ rank y, a < b) : Scalar.Compared α where
  defined {x y} h := by
    obtain ⟨a, ha, b, hb, -⟩ := (le x y).1 h
    exact ⟨(le x x).2 ⟨a, ha, a, ha, le_rfl⟩, (le y y).2 ⟨b, hb, b, hb, le_rfl⟩⟩
  le_trans {x y z} h h' := by
    obtain ⟨a, ha, b, hb, lower⟩ := (le x y).1 h
    obtain ⟨b', hb', c, hc, upper⟩ := (le y z).1 h'
    obtain rfl := Option.mem_unique hb hb'
    exact (le x z).2 ⟨a, ha, c, hc, lower.trans upper⟩
  le_total {x y} hx hy := by
    obtain ⟨a, ha, -⟩ := (le x x).1 hx
    obtain ⟨b, hb, -⟩ := (le y y).1 hy
    exact (LinearOrder.le_total a b).imp (fun h => (le x y).2 ⟨a, ha, b, hb, h⟩)
      fun h => (le y x).2 ⟨b, hb, a, ha, h⟩
  lt_iff {x y} := by
    rw [lt, le, le]
    constructor
    · rintro ⟨a, ha, b, hb, h⟩
      refine ⟨⟨a, ha, b, hb, h.le⟩, ?_⟩
      rintro ⟨b', hb', a', ha', back⟩
      cases Option.mem_unique ha ha'
      cases Option.mem_unique hb hb'
      exact absurd h back.not_gt
    · rintro ⟨⟨a, ha, b, hb, -⟩, h⟩
      exact ⟨a, ha, b, hb, lt_of_not_ge fun back => h ⟨b, hb, a, ha, back⟩⟩

namespace Scalar

variable {α : Type} [Scalar α] {x y z : α}

open Compared Rounded

section Compared

variable [Compared α]

theorem le_of_lt (h : x < y) : x ≤ y :=
  (lt_iff.1 h).1

theorem not_le_of_lt (h : x < y) : ¬y ≤ x :=
  (lt_iff.1 h).2

theorem lt_of_not_le (hx : x ≤ x) (hy : y ≤ y) (h : ¬y ≤ x) : x < y :=
  lt_iff.2 ⟨(le_total hx hy).resolve_right h, h⟩

theorem lt_of_le_of_lt (h : x ≤ y) (h' : y < z) : x < z :=
  lt_iff.2 ⟨le_trans h (le_of_lt h'), fun back => not_le_of_lt h' (le_trans back h)⟩

theorem lt_of_lt_of_le (h : x < y) (h' : y ≤ z) : x < z :=
  lt_iff.2 ⟨le_trans (le_of_lt h) h', fun back => not_le_of_lt h (le_trans h' back)⟩

theorem lt_irrefl : ¬x < x :=
  fun h => not_le_of_lt h (le_of_lt h)

end Compared

variable [Rounded α]

namespace IsFinite

theorem le_self (h : IsFinite x) : x ≤ x :=
  (defined (le_of_lt h.2)).1

theorem of_le (hx : 0 ≤ x) (h : x ≤ y) (hy : IsFinite y) : IsFinite x :=
  ⟨lt_of_lt_of_le neg_infinity_lt_zero hx, lt_of_le_of_lt h hy.2⟩

theorem zero : IsFinite (0 : α) :=
  ⟨neg_infinity_lt_zero, zero_lt_infinity⟩

end IsFinite

theorem not_isFinite_infinity : ¬IsFinite (infinity : α) :=
  fun h => lt_irrefl h.2

/-- What is not negative is finite or infinite. -/
theorem isFinite_or_eq_infinity (h : 0 ≤ x) : IsFinite x ∨ x = infinity := by
  have self : x ≤ x := (defined h).2
  have top : (infinity : α) ≤ infinity := (defined Signed.zero_le_infinity).2
  by_cases reached : infinity ≤ x
  · exact .inr (eq_infinity reached)
  · exact .inl ⟨lt_of_lt_of_le neg_infinity_lt_zero h, lt_of_not_le self top reached⟩

theorem sub_nonneg (h : x ≤ y) (hx : IsFinite x) : 0 ≤ y - x := by
  rw [← sub_self hx]
  exact sub_le_sub h hx

/-- The larger of two is between the one and any bound of both, also if the other is undefined. -/
theorem max_between (hy : y ≤ y) (hz : y ≤ z) (h : x ≤ x → x ≤ z) :
    y ≤ Scalar.max x y ∧ Scalar.max x y ≤ z := by
  unfold Scalar.max
  by_cases below : x ≤ y
  · rw [if_pos below]
    exact ⟨hy, hz⟩
  · rw [if_neg below]
    by_cases defined : x ≤ x
    · rw [if_pos defined]
      exact ⟨(le_total defined hy).resolve_left below, h defined⟩
    · rw [if_neg defined]
      exact ⟨hy, hz⟩

theorem max_within {lower upper : α} (hx : lower ≤ x) (hx' : x ≤ upper) (hy : y ≤ y → y ≤ upper) :
    lower ≤ Scalar.max x y ∧ Scalar.max x y ≤ upper := by
  unfold Scalar.max
  by_cases below : x ≤ y
  · rw [if_pos below]
    exact ⟨le_trans hx below, hy (defined below).2⟩
  · rw [if_neg below, if_pos (defined hx).2]
    exact ⟨hx, hx'⟩

def Boundless (x : α) : Prop :=
  x ≤ x → x = infinity

theorem boundless_infinity_sub (x : α) : Boundless (infinity - x) :=
  infinity_sub

omit [Rounded α] in
theorem Boundless.max_cases (h : Boundless x) :
    Scalar.max x y = y ∨ Scalar.max x y = infinity := by
  unfold Scalar.max
  by_cases below : x ≤ y
  · rw [if_pos below]
    exact .inl rfl
  · rw [if_neg below]
    by_cases defined : x ≤ x
    · rw [if_pos defined]
      exact .inr (h defined)
    · rw [if_neg defined]
      exact .inl rfl

end Scalar

open Exact (real)

namespace Exact

noncomputable def rank : Exact → Option EReal
  | undefined => none
  | infinite negative => some (if negative then ⊥ else ⊤)
  | real x => some x

theorem le_iff_rank (x y : Exact) : x ≤ y ↔ ∃ a ∈ x.rank, ∃ b ∈ y.rank, a ≤ b := by
  match x, y with
  | undefined, _ | real _, undefined | infinite _, undefined =>
    simp only [rank, Option.mem_def, reduceCtorEq, false_and, exists_false, and_false, iff_false]
    exact id
  | real x, real y => simp [rank]
  | real x, infinite n =>
    show n = false ↔ _
    cases n <;> simp [rank]
  | infinite n, real y =>
    show n = true ↔ _
    cases n <;> simp [rank]
  | infinite m, infinite n =>
    show (m = true ∨ n = false) ↔ _
    cases m <;> cases n <;> simp [rank]

theorem lt_iff_rank (x y : Exact) : x < y ↔ ∃ a ∈ x.rank, ∃ b ∈ y.rank, a < b := by
  match x, y with
  | undefined, _ | real _, undefined | infinite _, undefined =>
    simp only [rank, Option.mem_def, reduceCtorEq, false_and, exists_false, and_false, iff_false]
    exact id
  | real x, real y => simp [rank]
  | real x, infinite n =>
    show n = false ↔ _
    cases n <;> simp [rank]
  | infinite n, real y =>
    show n = true ↔ _
    cases n <;> simp [rank]
  | infinite m, infinite n =>
    show (m = true ∧ n = false) ↔ _
    cases m <;> cases n <;> simp [rank]

theorem pos_mul_infinity {x : ℝ} (h : 0 < x) : real x * .infinite false = .infinite false := by
  show Exact.mul _ _ = _
  simp [Exact.mul, h.ne', h.le]

theorem infinity_mul_pos {x : ℝ} (h : 0 < x) : .infinite false * real x = .infinite false := by
  show Exact.mul _ _ = _
  simp [Exact.mul, h.ne', h.le]

end Exact

instance : Scalar.Rounded Exact where
  toCompared := Scalar.compared_of_rank Exact.le_iff_rank Exact.lt_iff_rank
  le_infinity {x} h := by
    match x, h with
    | .infinite true, _ => exact .inl rfl
    | .infinite false, _ => exact .inr rfl
    | real _, _ => exact rfl
  eq_infinity {x} h := by
    match x, h with
    | .infinite false, _ => rfl
    | .infinite true, h => cases h <;> contradiction
  neg_infinity_lt_zero := by
    rw [Exact.zero_eq_real]
    exact rfl
  zero_lt_infinity := by simp
  neg_one_lt_zero := by simp
  zero_lt_one := by simp
  tolerance_pos := by simp [Exact.real_div_real]
  mul_nonneg {x y} hx hy := by
    rw [Exact.zero_eq_real] at *
    match x, y, hx, hy with
    | real x, real y, hx, hy =>
      exact (mul_pos (Exact.real_lt_real.1 hx) (Exact.real_lt_real.1 hy)).le
    | real x, .infinite false, hx, _ =>
      have product : real x * .infinite false = .infinite false := Exact.pos_mul_infinity hx
      rw [product]
      exact rfl
    | .infinite false, real y, _, hy =>
      have product : .infinite false * real y = .infinite false := Exact.infinity_mul_pos hy
      rw [product]
      exact rfl
    | .infinite false, .infinite false, _, _ => exact rfl
  sub_self {x} h := by
    obtain ⟨x, rfl⟩ := Exact.isFinite_iff.1 h
    simp
  sub_le_sub {x y z} h hz := by
    obtain ⟨z, rfl⟩ := Exact.isFinite_iff.1 hz
    match x, y, h with
    | real x, real y, h => simpa using h
    | real x, .infinite false, _ => simp; exact rfl
    | .infinite true, real y, _ => simp; exact rfl
    | .infinite true, .infinite _, _ => exact .inl rfl
    | .infinite false, .infinite false, _ => exact .inr rfl
  sub_le {x y} hx hy := by
    obtain ⟨x, rfl⟩ := Exact.isFinite_iff.1 hx
    obtain ⟨y, rfl, h⟩ | rfl := Exact.eq_real_or_eq_infinity hy
    · simpa using h
    · exact rfl
  infinity_sub {x} h := by
    match x, h with
    | real _, _ => rfl
    | .infinite true, _ => rfl
  infinity_sub_infinity := id
  le_add {x y} hx hy := by
    obtain ⟨x, rfl, h⟩ | rfl := Exact.eq_real_or_eq_infinity hx
    · obtain ⟨y, rfl, h'⟩ | rfl := Exact.eq_real_or_eq_infinity hy
      · simpa using ⟨h', h⟩
      · exact ⟨rfl, .inr rfl⟩
    · obtain ⟨y, rfl, h'⟩ | rfl := Exact.eq_real_or_eq_infinity hy
      · exact ⟨.inr rfl, rfl⟩
      · exact ⟨.inr rfl, .inr rfl⟩

end ParticlePatterns
