import Mathlib
import ParticlePatterns.Proofs.Number.Placing
import ParticlePatterns.Proofs.Number.Rounded

/-!
# Machine numbers are rounded

A finite double is a multiple of the smallest one, and doubles are compared by their places. Sums
and differences go to the place of the exact result, or overflow. As no greater number has a lower
place, doubles are rounded numbers.
-/

set_option autoImplicit false

namespace ParticlePatterns.Machine

open Float.Model (UnpackedFloat Format)
open Float.Model.UnpackedFloat

theorem unpackSign_packComponents (s : Sign) (E M) :
    Sign.ofBitVec (unpackSign (packComponents Format.binary64 s E M)) = s := by
  show Sign.ofBitVec ((s.toBitVec ++ E ++ M).extractLsb' 63 1) = s
  rw [BitVec.extractLsb'_append_eq_of_le (by decide),
    BitVec.extractLsb'_append_eq_of_le (by decide)]
  cases s <;> rfl

theorem toNat_hidden (M : BitVec 52) : (1#1 ++ M).toNat = 2 ^ 52 + M.toNat := by
  rw [BitVec.toNat_append, ← Nat.shiftLeft_add_eq_or_of_lt M.isLt]
  rfl

theorem unpack_normal (s : Sign) {E : BitVec 11} (M : BitVec 52) (low : 0 < E.toNat)
    (high : E.toNat < 2047) :
    unpack Format.binary64 (packComponents Format.binary64 s E M) =
      .finite s (2 ^ 52 + M.toNat) (E.toNat - 1075) (by omega) := by
  have above : E ≠ 0#11 := fun least => by simp [least] at low
  have below : E ≠ -1#11 := fun greatest => by simp [greatest] at high
  unfold UnpackedFloat.unpack
  simp only [unpackMantissa_packComponents, unpackExponent_packComponents,
    unpackSign_packComponents, toNat_hidden]
  rw [if_neg below, if_neg above]
  rfl

theorem unpack_subnormal (s : Sign) {M : BitVec 52} (h : 0 < M.toNat) :
    unpack Format.binary64 (packComponents Format.binary64 s 0#11 M) =
      .finite s M.toNat (-1074) h := by
  have some : M ≠ 0#52 := fun none => by simp [none] at h
  unfold UnpackedFloat.unpack
  simp only [unpackMantissa_packComponents, unpackExponent_packComponents,
    unpackSign_packComponents]
  exact (if_neg (by decide)).trans ((if_pos trivial).trans (dif_neg some))

theorem unpack_zero (s : Sign) :
    unpack Format.binary64 (packedZero Format.binary64 s) = .zero s := by
  cases s <;> rfl

theorem unpack_infinity (s : Sign) :
    unpack Format.binary64 (packedInfinity Format.binary64 s) = .infinity s := by
  cases s <;> rfl

theorem unpack_undefined (s : Sign) {M : BitVec 52} (h : M ≠ 0#52) :
    unpack Format.binary64 (packComponents Format.binary64 s (-1#11) M) = .notANumber := by
  unfold UnpackedFloat.unpack
  simp only [unpackMantissa_packComponents, unpackExponent_packComponents]
  exact (if_pos trivial).trans (if_neg h)

theorem toBitVec_ofBitVec (b : BitVec 1) : (Sign.ofBitVec b).toBitVec = b := by
  obtain rfl | rfl := BitVec.eq_zero_or_eq_one b <;> rfl

theorem exists_packComponents (b : BitVec 64) :
    ∃ s E M, packComponents Format.binary64 s E M = b := by
  refine ⟨.ofBitVec (b.extractLsb' 63 1), b.extractLsb' 52 11, b.extractLsb' 0 52, ?_⟩
  have upper : b.extractLsb' 63 1 ++ b.extractLsb' 52 11 = b.extractLsb' 52 12 :=
    BitVec.extractLsb'_append_extractLsb'_eq_extractLsb' rfl
  unfold packComponents
  rw [toBitVec_ofBitVec]
  show b.extractLsb' 63 1 ++ b.extractLsb' 52 11 ++ b.extractLsb' 0 52 = b
  rw [upper]
  exact (BitVec.extractLsb'_append_extractLsb'_eq_extractLsb' rfl).trans BitVec.extractLsb'_eq_self

/-- A number of the format is packed without loss. -/
theorem unpack_pack {m k : Nat} (h : Canonical m k) (high : k ≤ 2045) (s : Sign) :
    unpack Format.binary64 (pack Format.binary64 (.finite s m (k - 1074) h.pos)) =
      .finite s m (k - 1074) h.pos := by
  obtain ⟨pos, small, full⟩ := h
  have fits : ¬2 ^ 11 ≤ ((k : Int) - 1074 + 1023 + 52).toNat + 1 := by omega
  by_cases normal : 2 ^ 52 ≤ m
  · have bits : m.log2 = 52 := (Nat.log2_eq_iff pos.ne').2 ⟨normal, small⟩
    have exponent : (BitVec.ofNat 11 ((k : Int) - 1074 + 1023 + 52).toNat).toNat = k + 1 := by
      rw [BitVec.toNat_ofNat]
      omega
    have mantissa : 2 ^ 52 + (BitVec.ofNat 52 m).toNat = m := by
      rw [BitVec.toNat_ofNat]
      omega
    have packed : pack Format.binary64 (.finite s m (k - 1074) pos) =
        packComponents Format.binary64 s (.ofNat 11 ((k : Int) - 1074 + 1023 + 52).toNat)
          (.ofNat 52 m) := by
      unfold UnpackedFloat.pack
      rw [bits]
      exact (if_neg fits).trans (if_pos rfl)
    rw [packed, unpack_normal s _ (by omega) (by omega)]
    simp only [mantissa, exponent]
    congr 1
    omega
  · obtain rfl : k = 0 := by omega
    have bits : m.log2 < 52 := (Nat.log2_lt pos.ne').2 (by omega)
    have mantissa : (BitVec.ofNat 52 m).toNat = m := by
      rw [BitVec.toNat_ofNat]
      omega
    have packed : pack Format.binary64 (.finite s m ((0 : Nat) - 1074) pos) =
        packComponents Format.binary64 s 0#11 (.ofNat 52 m) := by
      unfold UnpackedFloat.pack
      exact (if_neg fits).trans (if_neg (show ¬m.log2 + 1 = 53 by omega))
    rw [packed, unpack_subnormal s (by omega)]
    simp only [mantissa]
    rfl

theorem unpack_pack_large {m k : Nat} (pos : 0 < m) (high : 2045 < k) (s : Sign) :
    unpack Format.binary64 (pack Format.binary64 (.finite s m (k - 1074) pos)) = .infinity s := by
  have large : 2 ^ 11 ≤ ((k : Int) - 1074 + 1023 + 52).toNat + 1 := by omega
  unfold UnpackedFloat.pack
  exact (congrArg _ (if_pos large)).trans (unpack_infinity s)

inductive Whole : UnpackedFloat → Int → Prop
  | zero (s : Sign) : Whole (.zero s) 0
  | finite (s : Sign) (m k : Nat) (h : Canonical m k) (high : k ≤ 2045) :
      Whole (.finite s m (k - 1074) h.pos) (s.apply (m * 2 ^ k : Nat))

inductive Shape : BitVec 64 → UnpackedFloat → Prop
  | undefined (b : BitVec 64) : Shape b .notANumber
  | infinite (s : Sign) : Shape (packedInfinity Format.binary64 s) (.infinity s)
  | whole (b : BitVec 64) {x : UnpackedFloat} {v : Int} (h : Whole x v) : Shape b x

theorem shape_unpack (b : BitVec 64) : Shape b (unpack Format.binary64 b) := by
  obtain ⟨s, (E : BitVec 11), (M : BitVec 52), rfl⟩ := exists_packComponents b
  by_cases high : E.toNat < 2047
  · obtain least | low := E.toNat.eq_zero_or_pos
    · obtain rfl : E = 0#11 := BitVec.eq_of_toNat_eq least
      obtain none | some := M.toNat.eq_zero_or_pos
      · obtain rfl : M = 0#52 := BitVec.eq_of_toNat_eq none
        have zero : unpack Format.binary64 (packComponents Format.binary64 s 0#11 0#52) = .zero s :=
          unpack_zero s
        rw [zero]
        exact .whole _ (.zero s)
      · rw [unpack_subnormal s some]
        exact .whole _ (.finite s _ 0 ⟨some, by omega, by omega⟩ (by omega))
    · obtain ⟨k, exponent⟩ := Nat.exists_eq_add_of_le' low
      have scaled : (E.toNat : Int) - 1075 = k - 1074 := by omega
      rw [unpack_normal s M low high]
      simp only [scaled]
      exact .whole _ (.finite s _ k ⟨by omega, by omega, by omega⟩ (by omega))
  · obtain rfl : E = -1#11 := BitVec.eq_of_toNat_eq (by
      have : (-1#11).toNat = 2047 := rfl
      omega)
    by_cases none : M = 0#52
    · rw [none]
      have infinite : unpack Format.binary64 (packComponents Format.binary64 s (-1#11) 0#52) =
          .infinity s := unpack_infinity s
      rw [infinite]
      exact .infinite s
    · rw [unpack_undefined s none]
      exact .undefined _

def lastPlace : Nat := 2047 * 2 ^ 52

/-- The place among all doubles, negative below zero. -/
def rank : UnpackedFloat → Option Int
  | .notANumber => none
  | .infinity s => some (s.apply lastPlace)
  | .zero _ => some 0
  | .finite s m e _ => some (s.apply ((e + 1074) * 2 ^ 52 + m))

theorem rank_finite (s : Sign) {m k : Nat} (h : Canonical m k) :
    rank (.finite s m (k - 1074) h.pos) = some (s.apply (k * 2 ^ 52 + m : Nat)) := by
  unfold rank
  push_cast
  rw [Int.sub_add_cancel]

/-- Places are read off the bits. -/
theorem rank_unpack (s : Sign) {E : BitVec 11} (M : BitVec 52) (high : E.toNat < 2047) :
    rank (unpack Format.binary64 (packComponents Format.binary64 s E M)) =
      some (s.apply (E.toNat * 2 ^ 52 + M.toNat : Nat)) := by
  obtain least | low := E.toNat.eq_zero_or_pos
  · obtain rfl : E = 0#11 := BitVec.eq_of_toNat_eq least
    obtain none | some := M.toNat.eq_zero_or_pos
    · obtain rfl : M = 0#52 := BitVec.eq_of_toNat_eq none
      have zero : unpack Format.binary64 (packComponents Format.binary64 s 0#11 0#52) = .zero s :=
        unpack_zero s
      rw [zero]
      cases s <;> simp [rank, Sign.apply]
    · rw [unpack_subnormal s some]
      simp [rank]
  · have value : (E.toNat : Int) - 1075 + 1074 = E.toNat - 1 := by omega
    rw [unpack_normal s M low high, rank, value]
    congr 2
    push_cast
    ring

theorem Canonical.lt_lastPlace {m k : Nat} (h : Canonical m k) (high : k ≤ 2045) :
    k * 2 ^ 52 + m < lastPlace := by
  have := h.small
  unfold lastPlace
  omega

theorem apply_lt_lastPlace (s : Sign) {p : Nat} (high : p < lastPlace) :
    -(lastPlace : Int) < s.apply p ∧ s.apply p < lastPlace := by
  cases s <;> simp only [Sign.apply] <;> omega

theorem apply_between {n : Nat} (pos : 0 < n) :
    Sign.apply .negative n < 0 ∧ 0 < Sign.apply .positive n :=
  ⟨Int.neg_neg_of_pos (Int.natCast_pos.2 pos), Int.natCast_pos.2 pos⟩

theorem swap_compare (p q : Int) : (compare p q).swap = compare (-p) (-q) := by
  obtain lower | rfl | higher := Int.lt_trichotomy p q
  · rw [Int.compare_eq_lt.2 lower, Int.compare_eq_gt.2 (Int.neg_lt_neg lower)]
    rfl
  · rw [Int.compare_eq_eq.2 rfl, Int.compare_eq_eq.2 rfl]
    rfl
  · rw [Int.compare_eq_gt.2 higher, Int.compare_eq_lt.2 (Int.neg_lt_neg higher)]
    rfl

theorem Canonical.compare_eq {m₁ m₂ k₁ k₂ : Nat} (h₁ : Canonical m₁ k₁) (h₂ : Canonical m₂ k₂) :
    (compare ((k₁ : Int) - 1074) (k₂ - 1074)).then (compare m₁ m₂) =
      compare ((k₁ * 2 ^ 52 + m₁ : Nat) : Int) (k₂ * 2 ^ 52 + m₂ : Nat) := by
  obtain ⟨-, small₁, full₁⟩ := h₁
  obtain ⟨-, small₂, full₂⟩ := h₂
  obtain lower | rfl | higher := Nat.lt_trichotomy k₁ k₂
  · rw [Int.compare_eq_lt.2 (by omega), Int.compare_eq_lt.2 (by omega)]
    rfl
  · rw [Int.compare_eq_eq.2 rfl]
    obtain less | rfl | more := Nat.lt_trichotomy m₁ m₂
    · rw [Nat.compare_eq_lt.2 less, Int.compare_eq_lt.2 (by omega)]
      rfl
    · rw [Nat.compare_eq_eq.2 rfl, Int.compare_eq_eq.2 rfl]
      rfl
    · rw [Nat.compare_eq_gt.2 more, Int.compare_eq_gt.2 (by omega)]
      rfl
  · rw [Int.compare_eq_gt.2 (by omega), Int.compare_eq_gt.2 (by omega)]
    rfl

theorem Canonical.place_pos {m k : Nat} (h : Canonical m k) : 0 < k * 2 ^ 52 + m :=
  h.pos.trans_le (Nat.le_add_left m _)

theorem Whole.compare_eq {x y : UnpackedFloat} {v w : Int} (hx : Whole x v) (hy : Whole y w) :
    x.compare y = (rank x).bind fun p => (rank y).map (compare p) := by
  cases hx with
  | zero s =>
    cases hy with
    | zero s' => rfl
    | finite s' m k h high =>
      have sides := apply_between h.place_pos
      rw [rank_finite s' h]
      cases s' with
      | negative => exact congrArg some (Int.compare_eq_gt.2 sides.1).symm
      | positive => exact congrArg some (Int.compare_eq_lt.2 sides.2).symm
  | finite s m k h high =>
    have sides := apply_between h.place_pos
    rw [rank_finite s h]
    cases hy with
    | zero s' =>
      cases s with
      | negative => exact congrArg some (Int.compare_eq_lt.2 sides.1).symm
      | positive => exact congrArg some (Int.compare_eq_gt.2 sides.2).symm
    | finite s' m' k' h' high' =>
      have sides' := apply_between h'.place_pos
      have same := h.compare_eq h'
      rw [rank_finite s' h']
      cases s with
      | negative =>
        cases s' with
        | negative =>
          have swapped : ((compare _ _).then (compare _ _)).swap = _ := congrArg Ordering.swap same
          exact congrArg some (swapped.trans (swap_compare _ _))
        | positive => exact congrArg some (Int.compare_eq_lt.2 (sides.1.trans sides'.2)).symm
      | positive =>
        cases s' with
        | negative => exact congrArg some (Int.compare_eq_gt.2 (sides'.1.trans sides.2)).symm
        | positive => exact congrArg some same

theorem Whole.rank_within {x : UnpackedFloat} {v : Int} (h : Whole x v) :
    ∃ p, rank x = some p ∧ -(lastPlace : Int) < p ∧ p < lastPlace := by
  cases h with
  | zero s => exact ⟨0, rfl, by decide, by decide⟩
  | finite s m k h high => exact ⟨_, rank_finite s h, apply_lt_lastPlace s (h.lt_lastPlace high)⟩

theorem Whole.compare_infinity {x : UnpackedFloat} {v : Int} (h : Whole x v) (s : Sign) :
    x.compare (.infinity s) = (rank x).map (compare · (s.apply lastPlace)) ∧
      UnpackedFloat.compare (.infinity s) x = (rank x).map (compare (s.apply lastPlace)) := by
  obtain ⟨p, ranked, low, high⟩ := h.rank_within
  rw [ranked, Option.map_some, Option.map_some]
  cases s with
  | negative =>
    have after : compare p (Sign.apply .negative lastPlace) = .gt := Int.compare_eq_gt.2 low
    have before : compare (Sign.apply .negative lastPlace) p = .lt := Int.compare_eq_lt.2 low
    rw [after, before]
    cases h <;> exact ⟨rfl, rfl⟩
  | positive =>
    have before : compare p (Sign.apply .positive lastPlace) = .lt := Int.compare_eq_lt.2 high
    have after : compare (Sign.apply .positive lastPlace) p = .gt := Int.compare_eq_gt.2 high
    rw [before, after]
    cases h <;> exact ⟨rfl, rfl⟩

/-- Doubles are compared by rank. -/
theorem compare_eq {b c : BitVec 64} {x y : UnpackedFloat} (hx : Shape b x) (hy : Shape c y) :
    x.compare y = (rank x).bind fun p => (rank y).map (compare p) := by
  cases hx with
  | undefined => rfl
  | infinite s =>
    cases hy with
    | undefined => cases s <;> rfl
    | infinite s' => cases s <;> cases s' <;> rfl
    | whole c h => exact (h.compare_infinity s).2
  | whole b h =>
    cases hy with
    | undefined => cases h <;> cases rank _ <;> rfl
    | infinite s =>
      rw [(h.compare_infinity s).1]
      cases rank x <;> rfl
    | whole c h' => exact h.compare_eq h'

def spread (d : Int) : Int :=
  d.sign * min (lastPlace : Int) (place d.natAbs)

theorem spread_apply (s : Sign) (n : Nat) :
    spread (s.apply n) = s.apply (min lastPlace (place n)) := by
  obtain rfl | pos := n.eq_zero_or_pos
  · cases s <;> rfl
  · unfold spread
    cases s with
    | negative =>
      simp only [Sign.apply, Int.sign_neg, Int.natAbs_neg, Int.natAbs_natCast]
      rw [Int.sign_natCast_of_ne_zero pos.ne', Int.neg_mul, Int.one_mul]
    | positive =>
      simp only [Sign.apply, Int.natAbs_natCast]
      rw [Int.sign_natCast_of_ne_zero pos.ne', Int.one_mul]

theorem exists_apply (d : Int) : ∃ (s : Sign) (n : Nat), d = s.apply n := by
  obtain ⟨n, rfl | rfl⟩ := d.eq_nat_or_neg
  · exact ⟨.positive, n, rfl⟩
  · exact ⟨.negative, n, rfl⟩

theorem spread_mono {d d' : Int} (h : d ≤ d') : spread d ≤ spread d' := by
  obtain ⟨s, n, rfl⟩ := exists_apply d
  obtain ⟨s', n', rfl⟩ := exists_apply d'
  rw [spread_apply, spread_apply]
  cases s with
  | negative =>
    cases s' with
    | negative =>
      have below : n' ≤ n := by simp only [Sign.apply] at h; omega
      have := place_mono below
      simp only [Sign.apply]
      omega
    | positive =>
      simp only [Sign.apply]
      omega
  | positive =>
    cases s' with
    | negative =>
      obtain ⟨rfl, rfl⟩ : n = 0 ∧ n' = 0 := by simp only [Sign.apply] at h; omega
      simp only [Sign.apply, place_zero]
      omega
    | positive =>
      have below : n ≤ n' := by simp only [Sign.apply] at h; omega
      have := place_mono below
      simp only [Sign.apply]
      omega

theorem spread_within (d : Int) : -(lastPlace : Int) ≤ spread d ∧ spread d ≤ lastPlace := by
  obtain ⟨s, n, rfl⟩ := exists_apply d
  rw [spread_apply]
  cases s <;> simp only [Sign.apply] <;> omega

theorem Whole.rank_eq {x : UnpackedFloat} {v : Int} (h : Whole x v) : rank x = some (spread v) := by
  cases h with
  | zero s => rfl
  | finite s m k h high =>
    have within : ((k * 2 ^ 52 + m : Nat) : Int) ≤ lastPlace := by
      exact_mod_cast (h.lt_lastPlace high).le
    rw [rank_finite s h, spread_apply, h.place, min_eq_right within]

def stored (x : UnpackedFloat) : UnpackedFloat :=
  (Float.Model.pack x).unpack

theorem rank_stored (s : Sign) {m k : Nat} (h : Canonical m k) :
    rank (stored (.finite s m (k - 1074) h.pos)) =
      some (s.apply (min lastPlace (k * 2 ^ 52 + m : Nat))) := by
  by_cases high : k ≤ 2045
  · have kept : stored (.finite s m (k - 1074) h.pos) = _ := unpack_pack h high s
    rw [kept, rank_finite s h, min_eq_right (by exact_mod_cast (h.lt_lastPlace high).le)]
  · have lost : stored (.finite s m (k - 1074) h.pos) = _ :=
      unpack_pack_large h.pos (not_le.1 high) s
    have above : lastPlace ≤ k * 2 ^ 52 + m := by
      have := h.full (by omega)
      unfold lastPlace
      omega
    rw [lost, min_eq_left (by exact_mod_cast above)]
    rfl

theorem rank_stored_round (s : Sign) {m : Nat} (pos : 0 < m) (k : Nat) :
    rank (stored (UnpackedFloat.round Format.binary64 s m (k - 1074))) =
      some (spread (s.apply (m * 2 ^ k : Nat))) := by
  obtain ⟨m', k', canonical, result, value⟩ := round_eq s pos k
  rw [result, rank_stored s canonical, spread_apply, value]

theorem apply_mul (s : Sign) (n j : Nat) : s.apply n * 2 ^ j = s.apply (n * 2 ^ j : Nat) := by
  push_cast
  cases s with
  | negative => exact Int.neg_mul _ _
  | positive => rfl

theorem rank_stored_normalize (v : Int) (k : Nat) (zero : Sign) :
    rank (stored (UnpackedFloat.normalize Format.binary64 v (k - 1074) zero)) =
      some (spread (v * 2 ^ k)) := by
  obtain ⟨s, n, rfl⟩ := exists_apply v
  unfold UnpackedFloat.normalize
  obtain rfl | pos := n.eq_zero_or_pos
  · cases s <;> cases zero <;> simp [Sign.apply] <;> rfl
  · rw [apply_mul, ← rank_stored_round s pos]
    cases s with
    | negative =>
      have below : compare (Sign.apply .negative n) 0 = .lt :=
        Int.compare_eq_lt.2 (Int.neg_neg_of_pos (Int.natCast_pos.2 pos))
      rw [below]
      simp only [Sign.apply, Int.neg_neg, Int.toNat_natCast]
    | positive =>
      have above : compare (Sign.apply .positive n) 0 = .gt :=
        Int.compare_eq_gt.2 (Int.natCast_pos.2 pos)
      rw [above]
      simp only [Sign.apply, Int.toNat_natCast]

theorem decreaseExponent_eq (m : Nat) {j k : Nat} (h : j ≤ k) :
    (UnpackedFloat.decreaseExponent m (k - 1074) (j - 1074)).1 = m * 2 ^ (k - j) := by
  have shift : ((k : Int) - 1074 - (j - 1074)).toNat = k - j := by omega
  show m <<< ((k : Int) - 1074 - (j - 1074)).toNat = _
  rw [Nat.shiftLeft_eq, shift]

theorem apply_shift (s : Sign) (m : Nat) {j k : Nat} (h : j ≤ k) :
    s.apply (m * 2 ^ (k - j) : Nat) * 2 ^ j = s.apply (m * 2 ^ k : Nat) := by
  rw [apply_mul, Nat.mul_assoc, ← Nat.pow_add, Nat.sub_add_cancel h]

theorem apply_neg (s : Sign) (n : Int) : (-s).apply n = -s.apply n := by
  cases s with
  | negative => exact (Int.neg_neg n).symm
  | positive => rfl

theorem Whole.rank_add {x y : UnpackedFloat} {v w : Int} (hx : Whole x v) (hy : Whole y w) :
    rank (stored (UnpackedFloat.add Format.binary64 x y)) = some (spread (v + w)) := by
  cases hx with
  | zero s =>
    cases hy with
    | zero s' => cases s <;> cases s' <;> rfl
    | finite s' m k h high =>
      rw [Int.zero_add, spread_apply, h.place]
      exact rank_stored s' h
  | finite s m k h high =>
    cases hy with
    | zero s' =>
      rw [Int.add_zero, spread_apply, h.place]
      exact rank_stored s h
    | finite s' m' k' h' high' =>
      have least : min ((k : Int) - 1074) (k' - 1074) = (min k k' : Nat) - 1074 := by omega
      unfold UnpackedFloat.add
      simp only [least, decreaseExponent_eq _ (Nat.min_le_left k k'),
        decreaseExponent_eq _ (Nat.min_le_right k k')]
      rw [rank_stored_normalize, Int.add_mul, apply_shift s _ (Nat.min_le_left k k'),
        apply_shift s' _ (Nat.min_le_right k k')]

theorem Whole.neg {x : UnpackedFloat} {v : Int} (h : Whole x v) : Whole x.neg (-v) := by
  cases h with
  | zero s => exact .zero (-s)
  | finite s m k h high =>
    rw [← apply_neg]
    exact .finite (-s) m k h high

theorem Whole.sub_eq_add_neg {x y : UnpackedFloat} {v w : Int} (hx : Whole x v) (hy : Whole y w) :
    UnpackedFloat.sub Format.binary64 x y = UnpackedFloat.add Format.binary64 x y.neg := by
  cases hx with
  | zero s => cases hy <;> rfl
  | finite s m k h high =>
    cases hy with
    | zero s' => rfl
    | finite s' m' k' h' high' =>
      unfold UnpackedFloat.sub UnpackedFloat.neg UnpackedFloat.add
      simp only [apply_neg, Int.sub_eq_add_neg]

theorem Whole.rank_sub {x y : UnpackedFloat} {v w : Int} (hx : Whole x v) (hy : Whole y w) :
    rank (stored (UnpackedFloat.sub Format.binary64 x y)) = some (spread (v - w)) := by
  rw [hx.sub_eq_add_neg hy, Int.sub_eq_add_neg]
  exact hx.rank_add hy.neg

theorem apply_inj {s s' : Sign} {n n' : Nat} (pos : 0 < n) (h : s.apply n = s'.apply n') :
    s = s' ∧ n = n' := by
  cases s <;> cases s' <;> simp only [Sign.apply] at h
  · exact ⟨rfl, by omega⟩
  · omega
  · omega
  · exact ⟨rfl, by omega⟩

theorem Whole.exists_eq {x : UnpackedFloat} {v : Int} (h : Whole x v) :
    ∃ (s : Sign) (m k : Nat), m < 2 ^ 53 ∧ (0 < k → 2 ^ 52 ≤ m) ∧
      v = s.apply (m * 2 ^ k : Nat) ∧ spread v = s.apply (k * 2 ^ 52 + m : Nat) := by
  cases h with
  | zero s => exact ⟨.positive, 0, 0, by decide, by omega, rfl, rfl⟩
  | finite s m k h high =>
    refine ⟨s, m, k, h.small, h.full, rfl, ?_⟩
    rw [spread_apply, h.place, min_eq_right (by exact_mod_cast (h.lt_lastPlace high).le)]

theorem Whole.eq_of_spread {x y : UnpackedFloat} {v w : Int} (hx : Whole x v) (hy : Whole y w)
    (h : spread v = spread w) : v = w := by
  obtain ⟨s, m, k, small, full, rfl, placed⟩ := hx.exists_eq
  obtain ⟨s', m', k', small', full', rfl, placed'⟩ := hy.exists_eq
  rw [placed, placed'] at h
  by_cases none : k * 2 ^ 52 + m = 0
  · obtain ⟨rfl, rfl⟩ : k = 0 ∧ m = 0 := by omega
    obtain ⟨rfl, rfl⟩ : k' = 0 ∧ m' = 0 := by
      cases s <;> cases s' <;> simp only [Sign.apply] at h <;> omega
    cases s <;> cases s' <;> rfl
  · obtain ⟨rfl, total⟩ := apply_inj (Nat.pos_of_ne_zero none) h
    obtain ⟨rfl, rfl⟩ : k = k' ∧ m = m' := by omega
    rfl

theorem Whole.spread_le_spread {x y : UnpackedFloat} {v w : Int} (hx : Whole x v) (hy : Whole y w) :
    spread v ≤ spread w ↔ v ≤ w := by
  refine ⟨fun h => ?_, spread_mono⟩
  by_contra above
  have same : spread v = spread w := le_antisymm h (spread_mono (not_le.1 above).le)
  exact above (hx.eq_of_spread hy same).le

theorem shape (x : Float) : Shape x.toModel.toBits.toBitVec x.toModel.unpack :=
  shape_unpack _

theorem le_iff_rank (x y : Float) :
    x ≤ y ↔ ∃ p ∈ rank x.toModel.unpack, ∃ q ∈ rank y.toModel.unpack, p ≤ q := by
  rw [le_iff, UnpackedFloat.le, compare_eq (shape x) (shape y)]
  cases rank x.toModel.unpack <;> cases rank y.toModel.unpack <;> simp [Int.isLE_compare]

theorem lt_iff_rank (x y : Float) :
    x < y ↔ ∃ p ∈ rank x.toModel.unpack, ∃ q ∈ rank y.toModel.unpack, p < q := by
  have unfolded : x < y ↔ x.toModel.unpack.lt y.toModel.unpack = true := by
    show decide (x.toModel.unpack.lt y.toModel.unpack = true) = true ↔ _
    rw [decide_eq_true_eq]
  rw [unfolded, UnpackedFloat.lt, compare_eq (shape x) (shape y)]
  cases rank x.toModel.unpack <;> cases rank y.toModel.unpack <;> simp [Int.compare_eq_lt]

instance : Scalar.Compared Float :=
  Scalar.compared_of_rank le_iff_rank lt_iff_rank

theorem Shape.eq_packedInfinity {b : BitVec 64} {s : Sign} (h : Shape b (.infinity s)) :
    b = packedInfinity Format.binary64 s := by
  cases h with
  | infinite => rfl
  | whole _ none => cases none

/-- Of each sign there is but one infinite double. -/
theorem eq_of_unpack_infinity {x : Float} {s : Sign} (h : x.toModel.unpack = .infinity s) :
    x = .ofModel (.pack (.infinity s)) := by
  have known := shape x
  rw [h] at known
  have bits : x.toModel.toBits = (Float.Model.pack (.infinity s)).toBits :=
    UInt64.eq_of_toBitVec_eq known.eq_packedInfinity
  obtain ⟨⟨_, _⟩⟩ := x
  obtain rfl := bits
  rfl

inductive View : Float → Prop
  | undefined {x : Float} (h : x.toModel.unpack = .notANumber) : View x
  | infinite : View Scalar.infinity
  | lowest : View (-Scalar.infinity)
  | whole {x : Float} {v : Int} (h : Whole x.toModel.unpack v) : View x

theorem view (x : Float) : View x := by
  have known := shape x
  generalize x.toModel.toBits.toBitVec = b, unpacked : x.toModel.unpack = u at known
  cases known with
  | undefined => exact .undefined unpacked
  | infinite s =>
    rw [eq_of_unpack_infinity unpacked]
    cases s with
    | negative => exact .lowest
    | positive => exact .infinite
  | whole _ h =>
    rw [← unpacked] at h
    exact .whole h

section Laws

variable {x y : Float} {v w p : Int}

theorem not_le_self (h : x.toModel.unpack = .notANumber) : ¬x ≤ x := by
  rw [le_iff_rank, h]
  rintro ⟨_, none, -⟩
  cases none

theorem le_of_ranks {p q : Int} (hx : rank x.toModel.unpack = some p)
    (hy : rank y.toModel.unpack = some q) : x ≤ y ↔ p ≤ q := by
  rw [le_iff_rank, hx, hy]
  simp

theorem lt_of_ranks {p q : Int} (hx : rank x.toModel.unpack = some p)
    (hy : rank y.toModel.unpack = some q) : x < y ↔ p < q := by
  rw [lt_iff_rank, hx, hy]
  simp

theorem rank_zero : rank (0 : Float).toModel.unpack = some (spread 0) := rfl

theorem rank_infinity : rank (Scalar.infinity : Float).toModel.unpack = some lastPlace := rfl

theorem rank_lowest :
    rank (-Scalar.infinity : Float).toModel.unpack = some (-(lastPlace : Int)) := rfl

theorem Whole.isFinite (h : Whole x.toModel.unpack v) : Scalar.IsFinite x := by
  obtain ⟨p, ranked, low, high⟩ := h.rank_within
  exact ⟨(lt_of_ranks rank_lowest ranked).2 low, (lt_of_ranks ranked rank_infinity).2 high⟩

theorem exists_whole (h : Scalar.IsFinite x) : ∃ v, Whole x.toModel.unpack v := by
  cases view x with
  | undefined undefined =>
    rw [Scalar.IsFinite, lt_iff_rank, undefined] at h
    simp [rank] at h
  | infinite => exact absurd ((lt_of_ranks rank_infinity rank_infinity).1 h.2) (lt_irrefl _)
  | lowest => exact absurd ((lt_of_ranks rank_lowest rank_lowest).1 h.1) (lt_irrefl _)
  | whole h => exact ⟨_, h⟩

theorem Whole.sub (hx : Whole x.toModel.unpack v) (hy : Whole y.toModel.unpack w) :
    rank (x - y).toModel.unpack = some (spread (v - w)) :=
  hx.rank_sub hy

theorem Whole.add (hx : Whole x.toModel.unpack v) (hy : Whole y.toModel.unpack w) :
    rank (x + y).toModel.unpack = some (spread (v + w)) :=
  hx.rank_add hy

theorem Whole.le_iff (hx : Whole x.toModel.unpack v) (hy : Whole y.toModel.unpack w) :
    x ≤ y ↔ v ≤ w :=
  (le_of_ranks hx.rank_eq hy.rank_eq).trans (hx.spread_le_spread hy)

/-- Beside an infinite number a finite one does not count. -/
theorem Whole.beside_infinity {u : UnpackedFloat} (h : Whole u v) (s : Sign) :
    UnpackedFloat.sub Format.binary64 (.infinity s) u = .infinity s ∧
      UnpackedFloat.sub Format.binary64 u (.infinity s) = .infinity (-s) ∧
      UnpackedFloat.add Format.binary64 (.infinity s) u = .infinity s ∧
      UnpackedFloat.add Format.binary64 u (.infinity s) = .infinity s := by
  cases h <;> exact ⟨rfl, rfl, rfl, rfl⟩

theorem Whole.infinity_sub (h : Whole x.toModel.unpack v) :
    Scalar.infinity - x = Scalar.infinity :=
  congrArg (fun u => Float.ofModel (.pack u)) (h.beside_infinity .positive).1

theorem Whole.lowest_sub (h : Whole x.toModel.unpack v) :
    -Scalar.infinity - x = -Scalar.infinity :=
  congrArg (fun u => Float.ofModel (.pack u)) (h.beside_infinity .negative).1

theorem Whole.sub_infinity (h : Whole x.toModel.unpack v) :
    x - Scalar.infinity = -Scalar.infinity :=
  congrArg (fun u => Float.ofModel (.pack u)) (h.beside_infinity .positive).2.1

theorem Whole.infinity_add (h : Whole x.toModel.unpack v) :
    Scalar.infinity + x = Scalar.infinity :=
  congrArg (fun u => Float.ofModel (.pack u)) (h.beside_infinity .positive).2.2.1

theorem Whole.add_infinity (h : Whole x.toModel.unpack v) :
    x + Scalar.infinity = Scalar.infinity :=
  congrArg (fun u => Float.ofModel (.pack u)) (h.beside_infinity .positive).2.2.2

theorem Whole.sub_self (h : Whole x.toModel.unpack v) : x - x = 0 := by
  have cancelled : UnpackedFloat.sub Format.binary64 x.toModel.unpack x.toModel.unpack =
      .zero .positive := by
    generalize x.toModel.unpack = u at h ⊢
    cases h with
    | zero s => cases s <;> rfl
    | finite s m k h high =>
      unfold UnpackedFloat.sub UnpackedFloat.normalize
      simp only [Int.min_self, Int.sub_self]
      rfl
  show Float.ofModel (.pack (UnpackedFloat.sub Format.binary64 _ _)) = _
  rw [cancelled]
  rfl

theorem le_infinity (h : x ≤ x) : x ≤ Scalar.infinity := by
  cases view x with
  | undefined undefined => exact absurd h (not_le_self undefined)
  | infinite => exact h
  | lowest => exact (le_of_ranks rank_lowest rank_infinity).2 (by decide)
  | whole known => exact Scalar.le_of_lt known.isFinite.2

theorem lowest_le (h : x ≤ x) : -Scalar.infinity ≤ x := by
  cases view x with
  | undefined undefined => exact absurd h (not_le_self undefined)
  | infinite => exact (le_of_ranks rank_lowest rank_infinity).2 (by decide)
  | lowest => exact h
  | whole known => exact Scalar.le_of_lt known.isFinite.1

theorem eq_infinity (h : Scalar.infinity ≤ x) : x = Scalar.infinity := by
  cases view x with
  | undefined undefined => exact absurd (Scalar.Compared.defined h).2 (not_le_self undefined)
  | infinite => rfl
  | lowest => exact absurd ((le_of_ranks rank_infinity rank_lowest).1 h) (by decide)
  | whole known => exact absurd h (Scalar.not_le_of_lt known.isFinite.2)

theorem eq_lowest (h : x ≤ -Scalar.infinity) : x = -Scalar.infinity := by
  cases view x with
  | undefined undefined => exact absurd (Scalar.Compared.defined h).1 (not_le_self undefined)
  | infinite => exact absurd ((le_of_ranks rank_infinity rank_lowest).1 h) (by decide)
  | lowest => rfl
  | whole known => exact absurd h (Scalar.not_le_of_lt known.isFinite.1)

/-- What a finite number is taken from does not become undefined. -/
theorem Whole.sub_le_self {z : Float} (h : Whole z.toModel.unpack v) (hx : x ≤ x) :
    x - z ≤ x - z := by
  cases view x with
  | undefined undefined => exact absurd hx (not_le_self undefined)
  | infinite => rwa [h.infinity_sub]
  | lowest => rwa [h.lowest_sub]
  | whole known => exact (le_of_ranks (known.sub h) (known.sub h)).2 le_rfl

theorem Whole.sub_le_sub {z : Float} (hz : Whole z.toModel.unpack v) (h : x ≤ y) :
    x - z ≤ y - z := by
  obtain ⟨hx, hy⟩ := Scalar.Compared.defined h
  cases view x with
  | undefined undefined => exact absurd hx (not_le_self undefined)
  | infinite =>
    obtain rfl := eq_infinity h
    exact hz.sub_le_self h
  | lowest =>
    rw [hz.lowest_sub]
    exact lowest_le (hz.sub_le_self hy)
  | whole known =>
    cases view y with
    | undefined undefined => exact absurd hy (not_le_self undefined)
    | infinite =>
      rw [hz.infinity_sub]
      exact le_infinity (hz.sub_le_self hx)
    | lowest => exact absurd h (Scalar.not_le_of_lt known.isFinite.1)
    | whole known' =>
      have order := (known.le_iff known').1 h
      exact (le_of_ranks (known.sub hz) (known'.sub hz)).2 (spread_mono (by omega))

theorem zero_le_whole (h : Whole x.toModel.unpack v) : 0 ≤ x ↔ 0 ≤ v := by
  have zero : Whole (0 : Float).toModel.unpack 0 := .zero .positive
  exact zero.le_iff h

/-- What is not negative is infinite, or a multiple of the smallest double. -/
theorem infinite_or_whole (h : 0 ≤ x) :
    x = Scalar.infinity ∨ ∃ v, 0 ≤ v ∧ Whole x.toModel.unpack v := by
  cases view x with
  | undefined undefined => exact absurd (Scalar.Compared.defined h).2 (not_le_self undefined)
  | infinite => exact .inl rfl
  | lowest => exact absurd ((le_of_ranks rank_zero rank_lowest).1 h) (by decide)
  | whole known => exact .inr ⟨_, (zero_le_whole known).1 h, known⟩

theorem infinity_sub_cases (x : Float) :
    Scalar.infinity - x = Scalar.infinity ∨
      (Scalar.infinity - x).toModel.unpack = .notANumber := by
  cases view x with
  | undefined h =>
    right
    show stored (UnpackedFloat.sub Format.binary64 _ x.toModel.unpack) = _
    rw [h]
    rfl
  | infinite => exact .inr rfl
  | lowest => exact .inl rfl
  | whole h => exact .inl h.infinity_sub

def greatest : Nat := (2 ^ 53 - 1) * 2 ^ 2045

/-- So little is rounded off in front of the greatest one. -/
def negligible : Nat := 2 ^ 2043

theorem Canonical.le_greatest {m k : Nat} (h : Canonical m k) (high : k ≤ 2045) :
    m * 2 ^ k ≤ greatest := by
  unfold greatest
  generalize 2045 = last at high ⊢
  exact Nat.mul_le_mul (Nat.le_sub_one_of_lt h.small) (Nat.pow_le_pow_right Nat.two_pos high)

theorem Whole.between_greatest {u : UnpackedFloat} (h : Whole u v) :
    -(greatest : Int) ≤ v ∧ v ≤ greatest := by
  cases h with
  | zero s => omega
  | finite s m k h high =>
    have small : m * 2 ^ k ≤ greatest := h.le_greatest high
    cases s <;> simp only [Sign.apply] <;> omega

theorem rank_small :
    ∃ q, rank (1e291 : Float).toModel.unpack = some q ∧ q < spread negligible := by
  have known : (rank (1e291 : Float).toModel.unpack).any (· < spread negligible) = true := by
    decide +kernel
  obtain ⟨q, limit, low⟩ := Option.any_eq_true _ _ |>.1 known
  exact ⟨q, limit, of_decide_eq_true low⟩

/-- A small number may be added over and over. Long before the sums overflow they do not grow any
more. -/
theorem isFinite_add (hx : Scalar.IsFinite x) (nonneg : 0 ≤ y) (small : y ≤ 1e291) :
    Scalar.IsFinite (x + y) := by
  obtain ⟨v, hv⟩ := exists_whole hx
  obtain ⟨q, limit, low⟩ := rank_small
  obtain rfl | ⟨w, positive, hw⟩ := infinite_or_whole nonneg
  · have below := (le_of_ranks rank_infinity limit).1 small
    exact absurd (low.trans_le (spread_within _).2) (not_lt.2 below)
  · have few : w ≤ negligible := by
      by_contra many
      have above := spread_mono (not_le.1 many).le
      have below := (le_of_ranks hw.rank_eq limit).1 small
      omega
    obtain ⟨least, most⟩ := hv.between_greatest
    have upper : spread (v + w) ≤ spread ((greatest + negligible : Nat) : Int) :=
      spread_mono (by omega)
    have lower := spread_mono (show v ≤ v + w by omega)
    have top : spread ((greatest + negligible : Nat) : Int) < lastPlace := by decide +kernel
    obtain ⟨p, ranked, low, high⟩ := hv.rank_within
    rw [hv.rank_eq] at ranked
    obtain rfl := Option.some.inj ranked
    exact ⟨(lt_of_ranks rank_lowest (hv.add hw)).2 (low.trans_le lower),
      (lt_of_ranks (hv.add hw) rank_infinity).2 (upper.trans_lt top)⟩

end Laws

inductive Upper : UnpackedFloat → Prop
  | infinite : Upper (.infinity .positive)
  | finite {m : Nat} (e : Int) (pos : 0 < m) : Upper (.finite .positive m e pos)

theorem Upper.rank_stored {u : UnpackedFloat} (h : Upper u) :
    ∃ p, rank (stored u) = some p ∧ 0 ≤ p := by
  cases h with
  | infinite => exact ⟨lastPlace, rfl, by decide⟩
  | @finite m e pos =>
    show ∃ p, rank (unpack Format.binary64 (pack Format.binary64 _)) = some p ∧ 0 ≤ p
    by_cases large : 2 ^ 11 ≤ (e + 1023 + 52).toNat + 1
    · refine ⟨lastPlace, ?_, by decide⟩
      exact congrArg (fun b => rank (unpack Format.binary64 b)) (if_pos large)
    · obtain ⟨E, M, high, packed⟩ : ∃ (E : BitVec 11) (M : BitVec 52), E.toNat < 2047 ∧
          pack Format.binary64 (.finite .positive m e pos) =
            packComponents Format.binary64 .positive E M := by
        by_cases normal : m.log2 + 1 = 53
        · refine ⟨.ofNat 11 (e + 1023 + 52).toNat, .ofNat 52 m, ?_, ?_⟩
          · rw [BitVec.toNat_ofNat]
            omega
          · exact (if_neg large).trans (if_pos normal)
        · exact ⟨0#11, .ofNat 52 m, by decide, (if_neg large).trans (if_neg normal)⟩
      rw [packed, rank_unpack .positive M high]
      exact ⟨_, rfl, Int.natCast_nonneg _⟩

theorem upper_of_pos {x : Float} (h : 0 < x) : Upper x.toModel.unpack := by
  cases view x with
  | undefined undefined =>
    rw [lt_iff_rank, undefined] at h
    simp [rank] at h
  | infinite => exact .infinite
  | lowest => exact absurd ((lt_of_ranks rank_zero rank_lowest).1 h) (by decide)
  | whole known =>
    have positive := (lt_of_ranks rank_zero known.rank_eq).1 h
    generalize x.toModel.unpack = u at known
    cases known with
    | zero s => exact absurd positive (lt_irrefl _)
    | finite s m k canonical high =>
      cases s with
      | positive => exact .finite _ _
      | negative =>
        have below := (apply_between (Nat.mul_pos canonical.pos (Nat.two_pow_pos k))).1
        exact absurd positive (not_lt.2 (spread_mono below.le))

/-- The product of positive numbers may be rounded to zero, or to infinity, but keeps its sign. -/
theorem Upper.mul {x y : UnpackedFloat} (hx : Upper x) (hy : Upper y) :
    UnpackedFloat.mul Format.binary64 x y = .zero .positive ∨
      Upper (UnpackedFloat.mul Format.binary64 x y) := by
  cases hx with
  | infinite =>
    cases hy with
    | infinite => exact .inr .infinite
    | finite => exact .inr .infinite
  | finite =>
    cases hy with
    | infinite => exact .inr .infinite
    | finite =>
      show roundWithAccuracy Format.binary64 .positive _ _ .exact = _ ∨
        Upper (roundWithAccuracy Format.binary64 .positive _ _ .exact)
      unfold roundWithAccuracy
      dsimp only
      split
      · exact .inl rfl
      · exact .inr (.finite _ _)

theorem zero_le_mul {x y : Float} (hx : 0 < x) (hy : 0 < y) : 0 ≤ x * y := by
  obtain ⟨p, ranked, nonneg⟩ : ∃ p, rank (stored (UnpackedFloat.mul Format.binary64
      x.toModel.unpack y.toModel.unpack)) = some p ∧ 0 ≤ p := by
    obtain zero | upper := (upper_of_pos hx).mul (upper_of_pos hy)
    · rw [zero]
      exact ⟨0, rfl, le_rfl⟩
    · exact upper.rank_stored
  exact (le_of_ranks rank_zero ranked).2 nonneg

end Machine

open Machine in
instance : Scalar.Rounded Float where
  toCompared := inferInstance
  le_infinity := le_infinity
  eq_infinity := eq_infinity
  neg_infinity_lt_zero := rfl
  zero_lt_infinity := rfl
  neg_one_lt_zero := rfl
  zero_lt_one := rfl
  tolerance_pos := rfl
  mul_nonneg := zero_le_mul
  sub_self {x} h := by
    obtain ⟨v, hv⟩ := exists_whole h
    exact hv.sub_self
  sub_le_sub {x y z} h hz := by
    obtain ⟨u, hu⟩ := exists_whole hz
    exact hu.sub_le_sub h
  sub_le {x y} hx hy := by
    obtain ⟨v, hv⟩ := exists_whole hx
    obtain rfl | ⟨w, nonneg, hw⟩ := infinite_or_whole hy
    · rw [hv.sub_infinity]
      exact Scalar.le_of_lt hx.1
    · exact (le_of_ranks (hv.sub hw) hv.rank_eq).2 (spread_mono (by omega))
  infinity_sub {x} h := by
    obtain same | undefined := infinity_sub_cases x
    · exact same
    · exact absurd h (not_le_self undefined)
  infinity_sub_infinity := not_le_self rfl
  le_add {x y} hx hy := by
    have top : (Scalar.infinity : Float) ≤ Scalar.infinity := rfl
    obtain rfl | ⟨v, nonneg, hv⟩ := infinite_or_whole hx
    · obtain rfl | ⟨w, nonneg, hw⟩ := infinite_or_whole hy
      · exact ⟨rfl, rfl⟩
      · rw [hw.infinity_add]
        exact ⟨top, Scalar.le_of_lt hw.isFinite.2⟩
    · obtain rfl | ⟨w, nonneg', hw⟩ := infinite_or_whole hy
      · rw [hv.add_infinity]
        exact ⟨Scalar.le_of_lt hv.isFinite.2, top⟩
      · exact ⟨(le_of_ranks hv.rank_eq (hv.add hw)).2 (spread_mono (by omega)),
          (le_of_ranks hw.rank_eq (hv.add hw)).2 (spread_mono (by omega))⟩

end ParticlePatterns
