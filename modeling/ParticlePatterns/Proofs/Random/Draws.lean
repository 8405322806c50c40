import Mathlib
import ParticlePatterns.Random
import ParticlePatterns.Proofs.Number.Exact

/-!
# Draws

A draw mixes the random state with its own shifts three times. What is shifted again and again
comes to nothing, so a word can be told from what it is after it was mixed with its shift. Hence
different states stay different however often they are mixed, and a state that is not zero does
not become zero, whatever is drawn.
-/

set_option autoImplicit false

namespace ParticlePatterns

namespace Rng

section Mixing

variable {shift : UInt64 → UInt64} {x y : UInt64}

def mix (shift : UInt64 → UInt64) (x : UInt64) : UInt64 :=
  x ^^^ shift x

structure Drains (shift : UInt64 → UInt64) : Prop where
  xor : ∀ x y, shift (x ^^^ y) = shift x ^^^ shift y
  ends : ∃ n, ∀ x, shift^[n] x = 0

/-- Two words that mix to the same differ by what is its own shift. -/
theorem Drains.mix_injective (h : Drains shift) : Function.Injective (mix shift) := by
  intro x y same
  have fixed : shift (x ^^^ y) = x ^^^ y := by
    have both : x ^^^ shift x ^^^ (y ^^^ shift y) = 0 := UInt64.xor_eq_zero_iff.2 same
    have apart : x ^^^ y ^^^ (shift x ^^^ shift y) = 0 := by
      rw [← both]
      ac_rfl
    rw [h.xor]
    exact (UInt64.xor_eq_zero_iff.1 apart).symm
  obtain ⟨n, none⟩ := h.ends
  have zero : x ^^^ y = 0 := by
    rw [← none (x ^^^ y), Function.iterate_fixed fixed]
  exact UInt64.xor_eq_zero_iff.1 zero

/-- By a number of places, where 64 of them are all there are. -/
theorem drains_of_places {s : BitVec 64 → ℕ → BitVec 64} {places : ℕ} (some : 0 < places)
    (same : ∀ x, (shift x).toBitVec = s x.toBitVec places) (nothing : ∀ b, s b 0 = b)
    (add : ∀ b m n, s b (m + n) = s (s b m) n) (all : ∀ b n, 64 ≤ n → s b n = 0)
    (xor : ∀ b c n, s (b ^^^ c) n = s b n ^^^ s c n) : Drains shift where
  xor x y := by
    apply UInt64.toBitVec_inj.1
    rw [same, UInt64.toBitVec_xor, xor, UInt64.toBitVec_xor, same, same]
  ends := by
    have repeated (n : ℕ) : ∀ x, (shift^[n] x).toBitVec = s x.toBitVec (places * n) := by
      induction n with
      | zero => exact fun x => (nothing _).symm
      | succ n ih =>
        intro x
        rw [Function.iterate_succ_apply, ih, same, ← add, Nat.mul_succ, Nat.add_comm]
    refine ⟨64, fun x => UInt64.toBitVec_inj.1 ?_⟩
    rw [repeated]
    exact all _ _ (Nat.le_mul_of_pos_left 64 some)

theorem drains_shiftLeft {k : UInt64} (h : 0 < (k.toBitVec % 64).toNat) : Drains (· <<< k) :=
  drains_of_places h (fun x => UInt64.toBitVec_shiftLeft x k) BitVec.shiftLeft_zero
    BitVec.shiftLeft_add (fun _ _ => BitVec.shiftLeft_eq_zero) BitVec.shiftLeft_xor_distrib

theorem drains_shiftRight {k : UInt64} (h : 0 < (k.toBitVec % 64).toNat) : Drains (· >>> k) :=
  drains_of_places h (fun x => UInt64.toBitVec_shiftRight x k) BitVec.ushiftRight_zero
    BitVec.shiftRight_add (fun _ _ => BitVec.ushiftRight_eq_zero) BitVec.ushiftRight_xor_distrib

theorem scramble_eq_mix (x : UInt64) :
    scramble x = mix (· <<< 17) (mix (· >>> 7) (mix (· <<< 13) x)) := rfl

theorem scramble_injective : Function.Injective scramble := by
  intro x y same
  rw [scramble_eq_mix, scramble_eq_mix] at same
  have last := (drains_shiftLeft (k := 17) (by decide)).mix_injective same
  have second := (drains_shiftRight (k := 7) (by decide)).mix_injective last
  exact (drains_shiftLeft (k := 13) (by decide)).mix_injective second

theorem scramble_bijective : Function.Bijective scramble :=
  Finite.injective_iff_bijective.1 scramble_injective

@[simp] theorem scramble_zero : scramble 0 = 0 := by decide

theorem scramble_eq_zero_iff : scramble x = 0 ↔ x = 0 :=
  ⟨fun h => scramble_injective (h.trans scramble_zero.symm), fun h => h ▸ scramble_zero⟩

theorem iterate_scramble_eq_zero_iff (n : ℕ) : scramble^[n] x = 0 ↔ x = 0 := by
  have zero : scramble^[n] 0 = 0 := Function.iterate_fixed scramble_zero n
  exact ⟨fun h => scramble_injective.iterate n (h.trans zero.symm), fun h => h ▸ zero⟩

end Mixing

end Rng

inductive Draw (α : Type)
  | word
  | unit
  | between (low high : α)
  | index (len : Nat)

inductive Drawn (α : Type)
  | word (x : UInt64)
  | scalar (x : α)
  | index (i : Option Nat)

namespace Draw

variable {α : Type}

def steps : Draw α → Nat
  | index 0 => 0
  | _ => 1

def stepsAll (ds : List (Draw α)) : Nat :=
  (ds.map steps).sum

end Draw

namespace Rng

variable {α : Type} [Scalar α] {r r' : Rng}

def draw (r : Rng) : Draw α → Drawn α × Rng
  | .word => (.word r.next.1, r.next.2)
  | .unit => (.scalar r.unit.1, (r.unit (α := α)).2)
  | .between low high => (.scalar (r.between low high).1, (r.between low high).2)
  | .index len => (.index (r.index len).1, (r.index len).2)

def draws : List (Draw α) → Rng → List (Drawn α) × Rng
  | [], r => ([], r)
  | d :: rest, r => ((r.draw d).1 :: (draws rest (r.draw d).2).1, (draws rest (r.draw d).2).2)

theorem draw_state (r : Rng) (d : Draw α) :
    (r.draw d).2.state = scramble^[d.steps] r.state := by
  cases d with
  | index len => cases len <;> rfl
  | _ => rfl

theorem draws_state (ds : List (Draw α)) : ∀ r : Rng,
    (r.draws ds).2.state = scramble^[Draw.stepsAll ds] r.state := by
  induction ds with
  | nil => exact fun _ => rfl
  | cons d rest ih =>
    intro r
    rw [draws, ih, draw_state, ← Function.iterate_add_apply, Nat.add_comm]
    rfl

theorem draws_state_eq_zero_iff (ds : List (Draw α)) :
    (r.draws ds).2.state = 0 ↔ r.state = 0 := by
  rw [draws_state, iterate_scramble_eq_zero_iff]

/-- No word that is drawn is zero, unless the state was. -/
theorem word_zero_not_mem_draws (ds : List (Draw α)) : ∀ {r : Rng}, r.state ≠ 0 →
    Drawn.word 0 ∉ (r.draws ds).1 := by
  induction ds with
  | nil => exact fun _ => List.not_mem_nil
  | cons d rest ih =>
    intro r alive
    have later : (r.draw d).2.state ≠ 0 := by
      rwa [draw_state, Ne, iterate_scramble_eq_zero_iff]
    rw [draws, List.mem_cons, not_or]
    refine ⟨fun first => alive ?_, ih later⟩
    cases d with
    | word => exact scramble_eq_zero_iff.1 (Drawn.word.inj first).symm
    | _ => cases first

/-- The state after a draw tells the state before it, and zero comes from zero only. So whatever
is drawn from a seeded state, it never becomes zero and no word that is drawn is zero; and what
begins in different states is in different states again after as many steps. -/
theorem generator_never_dies {α : Type} [Scalar α] :
    (Function.Bijective fun x : UInt64 => (next ⟨x⟩).2.state) ∧
    (∀ x : UInt64, (next ⟨x⟩).2.state = 0 ↔ x = 0) ∧
    (∀ (seed : UInt64) (ds : List (Draw α)), ((ofSeed seed).draws ds).2.state ≠ 0 ∧
      Drawn.word 0 ∉ ((ofSeed seed).draws ds).1) ∧
    ∀ (r r' : Rng) (ds ds' : List (Draw α)), r ≠ r' → Draw.stepsAll ds = Draw.stepsAll ds' →
      (r.draws ds).2 ≠ (r'.draws ds').2 := by
  refine ⟨scramble_bijective, fun _ => scramble_eq_zero_iff, fun seed ds => ?_, ?_⟩
  · have alive := ofSeed_state_ne_zero seed
    exact ⟨fun dead => alive ((draws_state_eq_zero_iff ds).1 dead),
      word_zero_not_mem_draws ds alive⟩
  · intro r r' ds ds' apart steps met
    have states := congrArg Rng.state met
    rw [draws_state, draws_state, steps] at states
    have same : r.state = r'.state := scramble_injective.iterate _ states
    obtain ⟨state⟩ := r
    obtain ⟨state'⟩ := r'
    exact apart (congrArg Rng.mk same)

open Exact (real)

/-- Two draws from one state and two from another, beside a choice from nothing. -/
theorem generator_never_dies_apart :
    let ds : List (Draw Exact) := [.word, .index 0, .unit]
    let ds' : List (Draw Exact) := [.between (real 0) (real 360), .index 6]
    ofSeed 0 ≠ ofSeed 2 ∧ Draw.stepsAll ds = Draw.stepsAll ds' ∧
      ((ofSeed 0).draws ds).2 ≠ ((ofSeed 2).draws ds').2 := by
  intro ds ds'
  have apart : ofSeed 0 ≠ ofSeed 2 := by decide
  exact ⟨apart, rfl, generator_never_dies.2.2.2 _ _ ds ds' apart rfl⟩

end Rng

end ParticlePatterns
