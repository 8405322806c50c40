import ParticlePatterns.Proofs.Behavior.Lawful
import ParticlePatterns.Proofs.Behavior.Portion
import ParticlePatterns.Proofs.Behavior.Slicing

/-!
# Emission

A batch hands out the positions of its moments one moment after the other, as many as its
progress has reached, however the time is cut into windows and whatever happens to the stage
in between. Over its whole lifespan it hands out every position once.
-/

set_option autoImplicit false

namespace ParticlePatterns

open Exact (real)

namespace Batch

variable (b : Batch)

/-! A position has a member, a moment and a copy for its digits. -/

theorem exists_digits {index : Nat} (h : index < b.total) :
    ∃ member < b.count, ∃ moment < b.times, ∃ copy < b.copies,
      index = member + b.count * moment + b.times * b.count * copy := by
  unfold total at h
  have count : 0 < b.count := by
    by_contra hc
    simp [Nat.eq_zero_of_not_pos hc] at h
  have times : 0 < b.times := by
    by_contra ht
    simp [Nat.eq_zero_of_not_pos ht] at h
  have high : index / b.count / b.times < b.copies := by
    rw [Nat.div_div_eq_div_mul, Nat.div_lt_iff_lt_mul (Nat.mul_pos count times)]
    rwa [Nat.mul_comm b.copies]
  refine ⟨index % b.count, Nat.mod_lt _ count, index / b.count % b.times, Nat.mod_lt _ times,
    index / b.count / b.times, high, ?_⟩
  calc index = index % b.count + b.count * (index / b.count) := (Nat.mod_add_div _ _).symm
    _ = index % b.count + b.count * (index / b.count % b.times +
          b.times * (index / b.count / b.times)) := by
        rw [Nat.mod_add_div (index / b.count)]
    _ = _ := by ring

theorem positions_perm : ((List.range b.times).flatMap b.positions).Perm (List.range b.total) := by
  have covers : List.range b.total ⊆ (List.range b.times).flatMap b.positions := by
    intro index hi
    obtain ⟨member, hm, moment, ht, copy, hc, rfl⟩ := b.exists_digits (List.mem_range.1 hi)
    simp only [positions, List.mem_flatMap, List.mem_map, List.mem_range]
    exact ⟨moment, ht, member, hm, copy, hc, rfl⟩
  have length : ((List.range b.times).flatMap b.positions).length = b.total := by
    simp only [List.length_flatMap, length_positions, List.map_const', List.sum_replicate,
      List.length_range, smul_eq_mul, total]
    ring
  have within : (List.range b.total).Subperm ((List.range b.times).flatMap b.positions) :=
    List.nodup_range.subperm covers
  exact (within.perm_of_length_le (by rw [length, List.length_range])).symm

theorem position_lt {moments index : Nat} (h : moments ≤ b.times)
    (hi : index ∈ (List.range moments).flatMap b.positions) : index < b.total := by
  obtain ⟨moment, hm, hi⟩ := List.mem_flatMap.1 hi
  have early : moment ∈ List.range b.times :=
    List.mem_range.2 ((List.mem_range.1 hm).trans_le h)
  exact List.mem_range.1 (b.positions_perm.subset (List.mem_flatMap.2 ⟨moment, early, hi⟩))

noncomputable def reachedBy (easing : Easing) (d x : ℝ) : Nat :=
  ⌊easing.realShare d x * b.times⌋₊

end Batch

namespace Batch

variable (b : Batch) {easing : Easing} {d x y z : ℝ}

theorem reachedBy_le : b.reachedBy easing d x ≤ b.times := by
  refine Nat.floor_le_of_le ?_
  exact mul_le_of_le_one_left (Nat.cast_nonneg _) (easing.realShare_le_one d x)

theorem reachedBy_mono (h : x ≤ y) : b.reachedBy easing d x ≤ b.reachedBy easing d y :=
  Nat.floor_le_floor (mul_le_mul_of_nonneg_right (easing.realShare_mono d h) (Nat.cast_nonneg _))

theorem reachedBy_zero : b.reachedBy easing d 0 = 0 := by
  rw [reachedBy, easing.realShare_zero]
  simp

theorem reachedBy_of_over (h : d ≤ x) (hx : 0 < x) : b.reachedBy easing d x = b.times := by
  rw [reachedBy, easing.realShare_of_le h hx]
  simp

theorem moments_real {t : Timing Exact} (hl : t.lifespan = real d) :
    b.moments t ⟨real x, real y⟩ = List.range' (b.reachedBy t.easing d x)
      (b.reachedBy t.easing d y - b.reachedBy t.easing d x) := by
  have at_ : ∀ x, Scalar.floorNat (t.progress (real x) * Scalar.ofNat b.times) =
      b.reachedBy t.easing d x := by
    intro x
    rw [Timing.progress_real hl]
    rfl
  have within : ∀ x, Nat.min (b.reachedBy t.easing d x) b.times = b.reachedBy t.easing d x :=
    fun x => Nat.min_eq_left b.reachedBy_le
  simp only [moments, at_, within]

noncomputable def handed (easing : Easing) (d x y : ℝ) : List Nat :=
  (List.range' (b.reachedBy easing d x) (b.reachedBy easing d y - b.reachedBy easing d x)).flatMap
    b.positions

theorem handed_append (hxy : x ≤ y) (hyz : y ≤ z) :
    b.handed easing d x y ++ b.handed easing d y z = b.handed easing d x z := by
  have first : b.reachedBy easing d x ≤ b.reachedBy easing d y := b.reachedBy_mono hxy
  have second : b.reachedBy easing d y ≤ b.reachedBy easing d z := b.reachedBy_mono hyz
  rw [handed, handed, handed, ← List.flatMap_append]
  congr 1
  obtain ⟨k, hk⟩ := Nat.exists_eq_add_of_le first
  obtain ⟨l, hl⟩ := Nat.exists_eq_add_of_le second
  rw [hl, hk, Nat.add_sub_cancel_left, Nat.add_sub_cancel_left, Nat.add_assoc,
    Nat.add_sub_cancel_left, List.range'_append_1]

end Batch

/-- Drive a behavior by one window after the other, also when it is complete. Each window
finds a stage of its own, since others may act on it in between. -/
def Behavior.across {α : Type} [Scalar α] (b : Behavior α) :
    List (Window α × Stage α) → Except (Fault α) (List (Reply α))
  | [] => .ok []
  | (w, stage) :: rest => do
      let reply ← b.update w stage
      let replies ← reply.behavior.across rest
      pure (reply :: replies)

theorem Timing.Awaits.update_emit {t : Timing Exact} {now stop : ℝ} (h : t.Awaits now)
    (hw : now ≤ stop) {d : ℝ} (hl : t.lifespan = real d) (batch : Batch)
    (body : Gen Exact (Behavior Exact)) (stage : Stage Exact) :
    (Behavior.emit t batch body).update ⟨real now, real stop⟩ stage =
      (Batch.spawn batch.total body (batch.handed t.easing d now stop) stage).map fun after =>
        ⟨t.verdict ⟨real now, real stop⟩,
          .emit { t with lastStop := some (real stop) } batch body, after⟩ := by
  have same : ({ t with lastStop := some (real stop) } : Timing Exact).lifespan = real d := hl
  show batch.update t body _ _ = _
  rw [Batch.update, h.enter hw]
  show (Batch.spawn _ _ _ _ >>= _) = _
  rw [batch.moments_real same]
  show (Batch.spawn batch.total body (batch.handed t.easing d now stop) stage >>= _) = _
  cases Batch.spawn batch.total body (batch.handed t.easing d now stop) stage <;> rfl

/-- Children of a sprite, one for each index. The body makes a behavior for this index out of so
many, from the random state that the one before it has left. -/
inductive Births {α : Type} [Scalar α] (body : Gen α (Behavior α)) (total : Nat)
    (parent : Sprite α) : List Nat → Rng → List (Particle α) → Rng → Prop
  | nobody {r : Rng} : Births body total parent [] r [] r
  | child {index : Nat} {indices : List Nat} {r next after : Rng} {b : Behavior α}
      {children : List (Particle α)} : body ⟨index, total⟩ r = .ok (b, next) →
      Births body total parent indices next children after →
      Births body total parent (index :: indices) r
        (⟨{ parent with opacity := 1, closed := false }, 0, some b⟩ :: children) after

theorem Births.length_eq {α : Type} [Scalar α] {body : Gen α (Behavior α)} {total : Nat}
    {parent : Sprite α} {indices : List Nat} {r after : Rng} {children : List (Particle α)}
    (h : Births body total parent indices r children after) :
    children.length = indices.length := by
  induction h with
  | nobody => rfl
  | child _ _ ih => simp [ih]

def Stage.Bears {α : Type} [Scalar α] (found : Stage α) (body : Gen α (Behavior α)) (total : Nat)
    (indices : List Nat) (after : Stage α) : Prop :=
  ∃ children, Births body total found.sprite indices found.rng children after.rng ∧
    after.sprite = found.sprite ∧ after.emitted = found.emitted ++ children.toArray

theorem Stage.Bears.size_eq {α : Type} [Scalar α] {body : Gen α (Behavior α)} {total : Nat}
    {indices : List Nat} {found after : Stage α} (h : found.Bears body total indices after) :
    after.emitted.size = found.emitted.size + indices.length := by
  obtain ⟨children, births, -, emitted⟩ := h
  simp [emitted, births.length_eq]

namespace Batch

variable {α : Type} [Scalar α] {body : Gen α (Behavior α)} {total : Nat}

theorem bears_of_spawn {indices : List Nat} {after : Stage α} : ∀ {found : Stage α},
    spawn total body indices found = .ok after → found.Bears body total indices after := by
  induction indices with
  | nil =>
    intro found h
    cases h
    exact ⟨[], .nobody, rfl, by simp⟩
  | cons index indices ih =>
    intro found h
    obtain ⟨⟨b, next⟩, made, h⟩ := bind_eq_ok.1 h
    obtain ⟨children, births, sprite, emitted⟩ := ih h
    refine ⟨_, .child made births, sprite, ?_⟩
    rw [emitted, ← Array.toList_inj]
    simp [Particle.spawnedBy, Sprite.child]

/-- Only the body can be at fault. -/
theorem fails_of_spawn {indices : List Nat} {fault : Fault α} : ∀ {found : Stage α},
    spawn total body indices found = .error fault → body.Fails fault := by
  induction indices with
  | nil =>
    intro found h
    cases h
  | cons index indices ih =>
    intro found h
    cases made : body ⟨index, total⟩ found.rng with
    | error early =>
      rw [spawn, made] at h
      cases h
      exact ⟨_, _, made⟩
    | ok drawn =>
      rw [spawn, made] at h
      exact ih h

end Batch

def BearsInTurn (body : Gen Exact (Behavior Exact)) (total : Nat) (parts : List (List Nat))
    (runs : List (Window Exact × Stage Exact)) (replies : List (Reply Exact)) : Prop :=
  List.Forall₂ (fun part reply => part.2.2.Bears body total part.1 reply.stage) (parts.zip runs)
    replies

theorem Batch.across_handed (batch : Batch) (body : Gen Exact (Behavior Exact)) {d stop : ℝ}
    (runs : List (Window Exact × Stage Exact)) : ∀ {now : ℝ} {t : Timing Exact}, t.Awaits now →
    t.lifespan = real d → Partition now stop (runs.map Prod.fst) →
    ∃ parts : List (List Nat), parts.length = runs.length ∧
      parts.flatten = batch.handed t.easing d now stop ∧
      EndsIn (BearsInTurn body batch.total parts runs) body.Fails
        ((Behavior.emit t batch body).across runs) := by
  induction runs with
  | nil =>
    intro now t _ _ cover
    have cover : now = stop := cover
    refine ⟨[], rfl, ?_, .nil⟩
    simp [handed, cover]
  | cons run rest ih =>
    obtain ⟨w, stage⟩ := run
    rintro now t awaits hl ⟨mid, hmid, rfl, cover⟩
    obtain ⟨parts, length, flat, later⟩ :=
      ih (t := { t with lastStop := some (real mid) }) (.inr rfl) hl cover
    refine ⟨batch.handed t.easing d now mid :: parts, by simp [length], ?_, ?_⟩
    · rw [List.flatten_cons, flat]
      exact batch.handed_append hmid.le cover.le
    · rw [Behavior.across, awaits.update_emit hmid.le hl]
      cases spawned : Batch.spawn batch.total body (batch.handed t.easing d now mid) stage with
      | error fault => exact fails_of_spawn spawned
      | ok after =>
        exact later.bind fun replies others => .cons (bears_of_spawn spawned) others

/-- Up to any time, however it is cut into windows and whatever stages these find, the children
are those of the moments that have come by then, moment after moment, one for every position in
the batch, and each knows how many they are in all. Nothing but a body can be at fault. By the end
of the lifespan every position has been handed out once. -/
theorem emission_handed_out (batch : Batch) (body : Gen Exact (Behavior Exact)) (easing : Easing)
    {d now : ℝ} {runs : List (Window Exact × Stage Exact)}
    (hw : Partition 0 now (runs.map Prod.fst)) :
    let moments := ⌊easing.realShare d now * batch.times⌋₊
    let positions := (List.range moments).flatMap batch.positions
    let total := batch.count * batch.times * batch.copies
    let emission : Behavior Exact := .emit ⟨easing, real d, none⟩ batch body
    (∃ parts : List (List Nat), parts.length = runs.length ∧ parts.flatten = positions ∧
      (∀ replies, emission.across runs = .ok replies →
        BearsInTurn body total parts runs replies) ∧
      ∀ fault, emission.across runs = .error fault → body.Fails fault) ∧
    easing.progress (real now) (real d) = real (easing.realShare d now) ∧
    moments ≤ batch.times ∧ (∀ index ∈ positions, index < total) ∧
    (0 < now → d ≤ now → positions.Perm (List.range total)) := by
  intro moments positions total emission
  have reached : moments = batch.reachedBy easing d now := rfl
  have all : batch.handed easing d 0 now = positions := by
    rw [Batch.handed, batch.reachedBy_zero, Nat.sub_zero, ← List.range_eq_range']
    rfl
  refine ⟨?_, Timing.progress_real (t := ⟨easing, real d, none⟩) rfl now, batch.reachedBy_le,
    fun index => batch.position_lt batch.reachedBy_le, fun hn hd => ?_⟩
  · obtain ⟨parts, length, flat, ends⟩ := batch.across_handed body runs
      (t := ⟨easing, real d, none⟩) (.inl ⟨rfl, rfl⟩) rfl hw
    refine ⟨parts, length, flat.trans all, fun replies run => ?_, fun fault run => ?_⟩
    · rwa [run] at ends
    · rwa [run] at ends
  · have whole : moments = batch.times := reached.trans (batch.reachedBy_of_over hd hn)
    rw [show positions = (List.range moments).flatMap batch.positions from rfl, whole]
    exact batch.positions_perm

/-- Two windows of one second, cut where the progress is in between two of the three moments,
hand out the six positions. -/
theorem emission_handed_out_pairs :
    let batch : Batch := ⟨2, 3, 1⟩
    let pause : Gen Exact (Behavior Exact) := Gen.constant .pause
    let stage : Stage Exact := ⟨.initial, .ofSeed 1, #[]⟩
    let runs : List (Window Exact × Stage Exact) :=
      [(⟨real 0, real 1⟩, stage), (⟨real 1, real 2⟩, stage)]
    Partition 0 2 (runs.map Prod.fst) ∧ (0 : ℝ) < 2 ∧ (2 : ℝ) ≤ 2 ∧
      ∃ first second earlier later,
        (Behavior.emit ⟨.easeInOut, real 2, none⟩ batch pause).across runs = .ok [first, second] ∧
        stage.Bears pause 6 earlier first.stage ∧ stage.Bears pause 6 later second.stage ∧
        (earlier ++ later).Perm (List.range 6) ∧
        first.stage.emitted.size + second.stage.emitted.size = 6 := by
  intro batch pause stage runs
  have cover : Partition 0 2 (runs.map Prod.fst) :=
    ⟨1, by norm_num, rfl, 2, by norm_num, rfl, rfl⟩
  have positive : (0 : ℝ) < 2 := by norm_num
  obtain ⟨⟨parts, length, flat, bears, fails⟩, -, -, -, whole⟩ :=
    emission_handed_out batch pause .easeInOut (d := 2) cover
  obtain ⟨earlier, later, rfl⟩ := List.length_eq_two.1 length
  cases run : (Behavior.emit ⟨.easeInOut, real 2, none⟩ batch pause).across runs with
  | error fault =>
    obtain ⟨_, _, failed⟩ := fails fault run
    cases failed
  | ok replies =>
    cases bears replies run with
    | cons first rest =>
      cases rest with
      | cons second rest =>
        cases rest
        have all : (earlier ++ later).Perm (List.range 6) := by
          rw [show earlier ++ later = [earlier, later].flatten by simp, flat]
          exact whole positive le_rfl
        refine ⟨cover, positive, le_rfl, _, _, earlier, later, rfl, first, second, all, ?_⟩
        have count : earlier.length + later.length = 6 := by simpa using all.length_eq
        rw [first.size_eq, second.size_eq]
        simpa [stage] using count

end ParticlePatterns
