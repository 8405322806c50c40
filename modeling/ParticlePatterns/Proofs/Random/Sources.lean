import Mathlib
import ParticlePatterns.Data.Stored
import ParticlePatterns.Proofs.Random.Draws

/-!
# Sources of random states

A random state comes from a seed, or it is read back from where it was stored. Seeds make no
state that is zero, but zero can be read, and then every draw comes to the same for ever. What
has been stored while it was alive is alive when it is read back.
-/

set_option autoImplicit false

namespace ParticlePatterns

variable {ν : Type}

theorem Data.word?_eq_some_iff {d : Data ν} {n : UInt64} : d.word? = some n ↔ d = .ofWord n := by
  refine ⟨fun h => ?_, fun h => h ▸ Data.word?_ofWord n⟩
  unfold Data.word? at h
  split at h
  next m =>
    split at h
    next range =>
      have whole : m.toNat.toUInt64.toNat = m.toNat := Nat.mod_eq_of_lt range.2
      rw [← Option.some.inj h, Data.ofWord, whole, Int.toNat_of_nonneg range.1]
    · cases h
  · cases h

theorem Rng.ofData?_eq_some_iff {d : Data ν} {r : Rng} :
    Rng.ofData? d = some r ↔ d.fields? ["state"] = some [some (.ofWord r.state)] := by
  unfold Rng.ofData?
  constructor
  · intro h
    split at h
    next state found =>
      obtain ⟨n, read, rfl⟩ := Option.map_eq_some_iff.1 h
      rw [found, Data.word?_eq_some_iff.1 read]
    · cases h
  · intro h
    simp only [h, Data.word?_ofWord, Option.map_some]

inductive Source (ν : Type)
  | seed (seed : UInt64)
  | standard
  | stored (d : Data ν)

namespace Source

def rng? : Source ν → Option Rng
  | seed n => some (.ofSeed n)
  | standard => some (.ofSeed Rng.standardSeed)
  | stored d => Rng.ofData? d

def StoresZero : Source ν → Prop
  | stored d => d.fields? ["state"] = some [some (.ofWord 0)]
  | _ => False

variable {s : Source ν} {r : Rng}

theorem state_eq_zero_iff (h : s.rng? = some r) : r.state = 0 ↔ s.StoresZero := by
  cases s with
  | seed n =>
    obtain rfl := Option.some.inj h
    exact iff_of_false (Rng.ofSeed_state_ne_zero n) id
  | standard =>
    obtain rfl := Option.some.inj h
    exact iff_of_false (Rng.ofSeed_state_ne_zero Rng.standardSeed) id
  | stored d =>
    have found := Rng.ofData?_eq_some_iff.1 h
    rw [StoresZero, found]
    constructor
    · intro zero
      rw [zero]
    · intro same
      have word : (Data.ofWord r.state : Data ν) = .ofWord 0 := by simpa using same
      rw [← Option.some_inj, ← Data.word?_ofWord (ν := ν), word, Data.word?_ofWord]

end Source

namespace Rng

variable {α : Type} [Scalar α] {r : Rng}

theorem draw_dead (dead : r.state = 0) (d : Draw α) : (r.draw d).2 = r := by
  have state : (r.draw d).2.state = r.state := by
    rw [draw_state, dead, iterate_scramble_eq_zero_iff]
  cases r
  cases same : (Rng.draw _ d).2
  rw [same] at state
  exact congrArg Rng.mk state

/-- From the zero state every draw comes to what it would have come to at first. -/
theorem draws_dead (dead : r.state = 0) (ds : List (Draw α)) :
    r.draws ds = (ds.map fun d => (r.draw d).1, r) := by
  induction ds with
  | nil => rfl
  | cons d rest ih => rw [draws, draw_dead dead, ih, List.map_cons]

/-- Whatever its source, a random state is never zero and draws no word that is, however much is
drawn; nor is it after it has been stored and read back in between. The one exception is zero that
was stored as the state: it is read, and nothing that is drawn changes it. -/
theorem alive_unless_zero_stored {ν α : Type} [Scalar α] {s : Source ν} {r : Rng}
    (h : s.rng? = some r) :
    (¬s.StoresZero → ∀ ds : List (Draw α), (r.draws ds).2.state ≠ 0 ∧
      Drawn.word 0 ∉ (r.draws ds).1 ∧
      let later : Source ν := .stored (r.draws ds).2.toData
      later.rng? = some (r.draws ds).2 ∧ ¬later.StoresZero) ∧
    (s.StoresZero → r.state = 0 ∧
      ∀ ds : List (Draw α), r.draws ds = (ds.map fun d => (r.draw d).1, r)) := by
  refine ⟨fun living ds => ?_, fun zero => ?_⟩
  · have alive : r.state ≠ 0 := fun dead => living ((Source.state_eq_zero_iff h).1 dead)
    have drawn : (r.draws ds).2.state ≠ 0 := fun dead =>
      alive ((draws_state_eq_zero_iff ds).1 dead)
    refine ⟨drawn, word_zero_not_mem_draws ds alive, ?_⟩
    intro later
    have back : later.rng? = some (r.draws ds).2 := Rng.ofData?_toData _
    exact ⟨back, fun zero => drawn ((Source.state_eq_zero_iff back).2 zero)⟩
  · have dead := (Source.state_eq_zero_iff h).2 zero
    exact ⟨dead, fun ds => draws_dead dead ds⟩

theorem alive_unless_zero_stored_five :
    let s : Source Exact := .stored (.record [("state", .integer 5)])
    let ds : List (Draw Exact) := [.unit, .index 3, .word]
    s.rng? = some ⟨5⟩ ∧ ¬s.StoresZero ∧ (draws ds ⟨5⟩).2.state ≠ 0 := by
  intro s ds
  have read : s.rng? = some ⟨5⟩ := rfl
  have living : ¬s.StoresZero := fun zero =>
    absurd ((Source.state_eq_zero_iff read).2 zero) (by decide)
  exact ⟨read, living, ((alive_unless_zero_stored read).1 living ds).1⟩

theorem zero_stored_never_varies :
    let d : Data Exact := .record [("state", .integer 0)]
    ∃ r, Rng.ofData? d = some r ∧ r.state = 0 ∧ r.next = (0, r) :=
  ⟨⟨0⟩, rfl, rfl, by decide⟩

end Rng

end ParticlePatterns
