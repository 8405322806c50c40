import ParticlePatterns.Proofs.Behavior.Emission

/-!
# Flattening

A sequence inside a sequence does what its behaviors would do in its place. Both are driven side
by side: whatever is being driven in the one has the same window in the other, since the offsets
of the two levels add up to the one offset of the flat sequence. What comes next may be put off
to the next window on either level, and an inner sequence that ends at a border is left like any
other behavior.
-/

set_option autoImplicit false

namespace ParticlePatterns

open Exact (real)

namespace Chain

section

variable {α : Type} [Scalar α] (timing : Timing α) (w : Window α) (stop : α) (steps : Nat)

def turn (now : α) (feed : Feed α) (stage : Stage α) : Except (Fault α) (Reply α) := do
  let (next, feed, rng) ← feed.next stage.rng
  let stage := { stage with rng }
  let c : Chain α := ⟨feed, next, now, true⟩
  match next with
  | none => pure (c.reply timing none (w.stop - now) stage)
  | some child =>
      if stop ≤ now then pure (c.reply timing child.behavior (timing.verdict w) stage)
      else run timing w stop steps now c stage

def answered (now : α) (feed : Feed α) (offset : α) (answer : Reply α) :
    Except (Fault α) (Reply α) :=
  if answer.leftover < 0 then
    pure ⟨timing.verdict w, .chain timing feed.toSupply answer.behavior offset false,
      answer.stage⟩
  else turn timing w stop steps (Scalar.max (stop - answer.leftover) now) feed answer.stage

theorem run_succ (now : α) (feed : Feed α) (child : Awake α) (offset : α) (fresh : Bool)
    (stage : Stage α) :
    run timing w stop (steps + 1) now ⟨feed, some child, offset, fresh⟩ stage =
      child.update (childWindow now stop offset fresh) stage >>=
        answered timing w stop steps now feed offset := rfl

end

/-- The time at which a chain turns to the next behavior is told in the same way on every level,
whatever the answer was. -/
theorem exists_turn {now stop : ℝ} (hn : now ≤ stop) {leftover : Exact} (h : ¬leftover < 0) :
    ∃ time, now ≤ time ∧ time ≤ stop ∧ ∀ p : ℝ,
      Scalar.max (real (stop - p) - leftover) (real (now - p)) = real (time - p) := by
  match leftover, h with
  | real r, h =>
    have nonneg : 0 ≤ r := by simpa using h
    refine ⟨max (stop - r) now, le_max_right _ _, max_le (by linarith) hn, fun p => ?_⟩
    rw [Exact.real_sub_real, Exact.max_real, ← max_sub_sub_right]
    congr 2
    ring
  | .infinite false, _ => exact ⟨now, le_rfl, hn, fun p => if_pos rfl⟩
  | .infinite true, h => exact absurd rfl h
  | .undefined, _ => exact ⟨now, le_rfl, hn, fun p => (if_neg id).trans (if_neg id)⟩

end Chain

def Feed.of {α : Type} [Scalar α] (bs : List (Behavior α)) : Feed α :=
  .list (bs.map Behavior.wake)

@[simp] theorem Feed.toSupply_of {α : Type} [Scalar α] (bs : List (Behavior α)) :
    (of bs).toSupply = .list bs := by
  simp [of, toSupply, Function.comp_def, Behavior.wake]

namespace Chain

variable {t : Timing Exact} {w : Window Exact} {stop now : Exact} {steps : Nat}
  {stage : Stage Exact}

theorem turn_nil : turn t w stop steps now (.of []) stage =
    pure ⟨w.stop - now, .chain t (.list []) none now true, stage⟩ := rfl

theorem turn_cons {b : Behavior Exact} {bs : List (Behavior Exact)} :
    turn t w stop steps now (.of (b :: bs)) stage =
      if stop ≤ now then pure ⟨t.verdict w, .chain t (.list bs) (some b) now true, stage⟩
      else run t w stop steps now ⟨.of bs, some b.wake, now, true⟩ stage := by
  rw [← Feed.toSupply_of bs]
  rfl

end Chain

inductive Flattens : List (Behavior Exact) → List (Behavior Exact) → Prop
  | nil : Flattens [] []
  | cons (b : Behavior Exact) {flat nested : List (Behavior Exact)} : Flattens flat nested →
      Flattens (b :: flat) (b :: nested)
  | splice {timing : Timing Exact} (b : Behavior Exact) (bs : List (Behavior Exact))
      {flat nested : List (Behavior Exact)} : timing.lastStop = none →
      timing.lifespan = Scalar.infinity → Flattens flat nested →
      Flattens (b :: (bs ++ flat)) ((Behavior.sequence (b :: bs)).withTiming timing :: nested)

namespace Flattens

theorem refl : ∀ bs : List (Behavior Exact), Flattens bs bs
  | [] => .nil
  | b :: bs => .cons b (refl bs)

theorem append_left {flat nested : List (Behavior Exact)} (h : Flattens flat nested) :
    ∀ bs : List (Behavior Exact), Flattens (bs ++ flat) (bs ++ nested)
  | [] => h
  | b :: bs => .cons b (h.append_left bs)

theorem length_le {flat nested : List (Behavior Exact)} (h : Flattens flat nested) :
    nested.length ≤ flat.length := by
  induction h with
  | nil => exact le_rfl
  | cons _ _ ih => simpa using ih
  | splice b bs _ _ _ ih =>
    simp only [List.length_cons, List.length_append]
    omega

end Flattens

inductive Levels (now : ℝ) : Behavior Exact → Behavior Exact → Prop
  | new {t t' : Timing Exact} {flat nested : List (Behavior Exact)}
      {current current' : Option (Behavior Exact)} {offset offset' : Exact}
      {fresh fresh' : Bool} : now = 0 → t.lastStop = none → t.lifespan = Scalar.infinity →
      t'.lastStop = none → t'.lifespan = Scalar.infinity → Flattens flat nested →
      flat.length ≤ Chain.stepLimit → Levels now (.chain t (.list flat) current offset fresh)
        (.chain t' (.list nested) current' offset' fresh')
  | ended {t t' : Timing Exact} {offset offset' : Exact} {fresh fresh' : Bool} : t.Endless now →
      t'.Endless now → Levels now (.chain t (.list []) none offset fresh)
        (.chain t' (.list []) none offset' fresh')
  /-- What comes next has been put off up to now. -/
  | due {t t' : Timing Exact} {flat nested : List (Behavior Exact)} : t.Endless now →
      t'.Endless now → Flattens flat nested → flat.length ≤ Chain.stepLimit →
      Levels now (.chain t (.list flat.tail) flat.head? (real now) true)
        (.chain t' (.list nested.tail) nested.head? (real now) true)
  | outside {t t' : Timing Exact} {flat nested : List (Behavior Exact)} {child : Behavior Exact}
      {offset : Exact} {fresh : Bool} : t.Endless now → t'.Endless now → Flattens flat nested →
      flat.length < Chain.stepLimit → Levels now (.chain t (.list flat) (some child) offset fresh)
        (.chain t' (.list nested) (some child) offset fresh)
  | inside {t t' u : Timing Exact} {flat nested rest : List (Behavior Exact)}
      {child : Behavior Exact} {outer inner : ℝ} {fresh : Bool} : t.Endless now →
      t'.Endless now → u.Endless (now - outer) → Flattens flat nested →
      (rest ++ flat).length < Chain.stepLimit →
      Levels now (.chain t (.list (rest ++ flat)) (some child) (real (outer + inner)) fresh)
        (.chain t' (.list nested)
          (some (.chain u (.list rest) (some child) (real inner) fresh)) (real outer) false)

inductive Tallies (R : Behavior Exact → Behavior Exact → Prop) :
    Except (Fault Exact) (Reply Exact) → Except (Fault Exact) (Reply Exact) → Prop
  | error (fault : Fault Exact) : Tallies R (.error fault) (.error fault)
  | ok {leftover leftover' : Exact} {b b' : Behavior Exact} {stage : Stage Exact} :
      leftover = leftover' → R b b' →
      Tallies R (.ok ⟨leftover, b, stage⟩) (.ok ⟨leftover', b', stage⟩)

theorem Tallies.bind {R : Behavior Exact → Behavior Exact → Prop}
    (x : Except (Fault Exact) (Reply Exact))
    {f g : Reply Exact → Except (Fault Exact) (Reply Exact)}
    (h : ∀ answer, Tallies R (f answer) (g answer)) : Tallies R (x >>= f) (x >>= g) := by
  cases x with
  | error fault => exact .error fault
  | ok answer => exact h answer

section Turns

def Turns (flat nested : List (Behavior Exact)) : Prop :=
  ∀ {t t' : Timing Exact} {start : Exact} {stop now : ℝ} {k m : Nat} {stage : Stage Exact},
    t.Endless stop → t'.Endless stop → now ≤ stop → flat.length ≤ k → k ≤ Chain.stepLimit →
    nested.length ≤ m → Tallies (Levels stop)
      (Chain.turn t ⟨start, real stop⟩ (real stop) k (real now) (.of flat) stage)
      (Chain.turn t' ⟨start, real stop⟩ (real stop) m (real now) (.of nested) stage)

def Starts (flat nested : List (Behavior Exact)) : Prop :=
  ∀ {t t' : Timing Exact} {start : Exact} {stop now : ℝ} {k m : Nat} {stage : Stage Exact},
    t.Endless stop → t'.Endless stop → now ≤ stop → flat.length ≤ k → 0 < k →
    k ≤ Chain.stepLimit → nested.length ≤ m → 0 < m → Tallies (Levels stop)
      (Chain.run t ⟨start, real stop⟩ (real stop) k (real now)
        ⟨.of flat.tail, flat.head?.map Behavior.wake, real now, true⟩ stage)
      (Chain.run t' ⟨start, real stop⟩ (real stop) m (real now)
        ⟨.of nested.tail, nested.head?.map Behavior.wake, real now, true⟩ stage)

variable {flat nested : List (Behavior Exact)}

theorem Starts.turns (h : Starts flat nested) (hf : Flattens flat nested) : Turns flat nested := by
  intro t t' start stop now k m stage ht ht' hn hk limit hm
  have same : t.verdict ⟨start, real stop⟩ = t'.verdict ⟨start, real stop⟩ := by
    rw [ht.verdict, ht'.verdict]
  cases hf with
  | nil => exact .ok rfl (.ended ht ht')
  | @cons b flat nested hf =>
    have short : flat.length < Chain.stepLimit := hk.trans limit
    rw [Chain.turn_cons, Chain.turn_cons]
    by_cases hs : real stop ≤ real now
    · rw [if_pos hs, if_pos hs]
      exact .ok same (.outside ht ht' hf short)
    · rw [if_neg hs, if_neg hs]
      exact h ht ht' hn hk (Nat.zero_lt_of_lt hk) limit hm (Nat.zero_lt_of_lt hm)
  | @splice timing b bs flat nested hnew hl hf =>
    have whole : Flattens (b :: (bs ++ flat)) _ := .splice b bs hnew hl hf
    rw [Chain.turn_cons, Chain.turn_cons]
    by_cases hs : real stop ≤ real now
    · rw [if_pos hs, if_pos hs]
      obtain rfl : now = stop := le_antisymm hn hs
      exact .ok same (.due ht ht' whole (hk.trans limit))
    · rw [if_neg hs, if_neg hs]
      exact h ht ht' hn hk (Nat.zero_lt_of_lt hk) limit hm (Nat.zero_lt_of_lt hm)

/-- What a chain does with one answer, with two lists that come to the same. -/
theorem Turns.answered (h : Turns flat nested) (hf : Flattens flat nested) {t t' : Timing Exact}
    {start : Exact} {stop now : ℝ} {k m : Nat} (ht : t.Endless stop) (ht' : t'.Endless stop)
    (hn : now ≤ stop) (hk : flat.length ≤ k) (limit : k < Chain.stepLimit) (hm : nested.length ≤ m)
    (offset : Exact) (answer : Reply Exact) : Tallies (Levels stop)
      (Chain.answered t ⟨start, real stop⟩ (real stop) k (real now) (.of flat) offset answer)
      (Chain.answered t' ⟨start, real stop⟩ (real stop) m (real now) (.of nested) offset
        answer) := by
  unfold Chain.answered
  by_cases negative : answer.leftover < 0
  · rw [if_pos negative, if_pos negative, Feed.toSupply_of, Feed.toSupply_of]
    exact .ok (by rw [ht.verdict, ht'.verdict]) (.outside ht ht' hf (hk.trans_lt limit))
  · rw [if_neg negative, if_neg negative]
    obtain ⟨time, _, within, turned⟩ := Chain.exists_turn hn negative
    have turned : Scalar.max (real stop - answer.leftover) (real now) = real time := by
      simpa using turned 0
    rw [turned]
    exact h ht ht' within hk limit.le hm

section Inside

variable {t t' u : Timing Exact} {start start' : Exact} {stop outer before : ℝ} {m : Nat}

/-- While an inner chain goes on, so does the outer one. -/
theorem Chain.answered_verdict (hu : u.Endless (stop - outer)) (b : Behavior Exact)
    (stage : Stage Exact) :
    answered t' ⟨start, real stop⟩ (real stop) m (real before) (.of nested) (real outer)
        ⟨u.verdict ⟨start', real (stop - outer)⟩, b, stage⟩ =
      pure ⟨t'.verdict ⟨start, real stop⟩, .chain t' (.list nested) (some b) (real outer) false,
        stage⟩ := by
  rw [hu.verdict, answered, if_pos (by simp), Feed.toSupply_of]

/-- When an inner chain has nothing left to drive, the outer one turns at the same time. -/
theorem Chain.answered_exhausted {time : ℝ} (later : before ≤ time) (within : time ≤ stop)
    (b : Behavior Exact) (stage : Stage Exact) :
    answered t' ⟨start, real stop⟩ (real stop) m (real before) (.of nested) (real outer)
        ⟨real (stop - outer) - real (time - outer), b, stage⟩ =
      turn t' ⟨start, real stop⟩ (real stop) m (real time) (.of nested) stage := by
  have left : real (stop - outer) - real (time - outer) = real (stop - time) := by
    rw [Exact.real_sub_real]
    congr 1
    ring
  rw [left, answered, if_neg (by simpa using within)]
  simp [max_eq_left later]

/-- What is being driven has the same window on both sides. -/
theorem Chain.tallies_run {rest : List (Behavior Exact)} {child : Behavior Exact} {inner now : ℝ}
    {fresh : Bool} {k j : Nat} {stage : Stage Exact} (ht : t.Endless stop) (ht' : t'.Endless stop)
    (hu : u.Endless (stop - outer)) (hf : Flattens flat nested) (hn : now ≤ stop)
    (hk : (rest ++ flat).length < Chain.stepLimit)
    (turned : ∀ {time : ℝ} {stage : Stage Exact}, now ≤ time → time ≤ stop → Tallies (Levels stop)
      (turn t ⟨start, real stop⟩ (real stop) k (real time) (.of (rest ++ flat)) stage)
      (turn u ⟨start', real (stop - outer)⟩ (real (stop - outer)) j (real (time - outer))
          (.of rest) stage >>=
        answered t' ⟨start, real stop⟩ (real stop) m (real before) (.of nested) (real outer))) :
    Tallies (Levels stop)
      (run t ⟨start, real stop⟩ (real stop) (k + 1) (real now)
        ⟨.of (rest ++ flat), some child.wake, real (outer + inner), fresh⟩ stage)
      (run u ⟨start', real (stop - outer)⟩ (real (stop - outer)) (j + 1) (real (now - outer))
          ⟨.of rest, some child.wake, real inner, fresh⟩ stage >>=
        answered t' ⟨start, real stop⟩ (real stop) m (real before) (.of nested) (real outer)) := by
  have window : childWindow (real now) (real stop) (real (outer + inner)) fresh =
      childWindow (real (now - outer)) (real (stop - outer)) (real inner) fresh := by
    have starts : childStart now (outer + inner) fresh = childStart (now - outer) inner fresh := by
      cases fresh with
      | true => rfl
      | false => exact (sub_sub now outer inner).symm
    rw [childWindow_real, childWindow_real, starts, sub_sub]
  rw [run_succ, run_succ, window, bind_assoc]
  refine Tallies.bind _ fun answer => ?_
  unfold answered
  by_cases negative : answer.leftover < 0
  · rw [if_pos negative, if_pos negative, Feed.toSupply_of, Feed.toSupply_of, pure_bind,
      ← answered, answered_verdict hu]
    exact .ok (by rw [ht.verdict, ht'.verdict]) (.inside ht ht' hu hf hk)
  · rw [if_neg negative, if_neg negative]
    obtain ⟨time, later, within, times⟩ := exists_turn hn negative
    have time_eq : Scalar.max (real stop - answer.leftover) (real now) = real time := by
      simpa using times 0
    rw [time_eq, times outer]
    exact turned later within

/-- Inside an inner chain, the flat chain drives what the inner chain drives. The induction is on
what is left of the inner chain; behind it, the turns of the flat and of the outer chain come to
the same. -/
theorem Turns.inside (h : Turns flat nested) (hf : Flattens flat nested) (ht : t.Endless stop)
    (ht' : t'.Endless stop) (hu : u.Endless (stop - outer)) (hm : nested.length ≤ m)
    (rest : List (Behavior Exact)) : ∀ {time : ℝ} {k j : Nat} {stage : Stage Exact},
    before ≤ time → time ≤ stop → (rest ++ flat).length ≤ k → k ≤ Chain.stepLimit →
    rest.length ≤ j → Tallies (Levels stop)
      (Chain.turn t ⟨start, real stop⟩ (real stop) k (real time) (.of (rest ++ flat)) stage)
      (Chain.turn u ⟨start', real (stop - outer)⟩ (real (stop - outer)) j (real (time - outer))
          (.of rest) stage >>=
        Chain.answered t' ⟨start, real stop⟩ (real stop) m (real before) (.of nested)
          (real outer)) := by
  induction rest with
  | nil =>
    intro time k j stage later within hk limit _
    rw [Chain.turn_nil, pure_bind, Chain.answered_exhausted later within]
    exact h ht ht' within hk limit hm
  | cons b rest ih =>
    intro time k j stage later within hk limit hj
    have short : (rest ++ flat).length < k := hk
    rw [List.cons_append, Chain.turn_cons, Chain.turn_cons]
    have same : real (stop - outer) ≤ real (time - outer) ↔ real stop ≤ real time := by simp
    by_cases hs : real stop ≤ real time
    · rw [if_pos hs, if_pos (same.2 hs), pure_bind, Chain.answered_verdict hu]
      have offset : real time = real (outer + (time - outer)) := by rw [add_sub_cancel]
      rw [offset]
      exact .ok (by rw [ht.verdict, ht'.verdict])
        (.inside ht ht' hu hf (short.trans_le limit))
    · rw [if_neg hs, if_neg (same.not.2 hs)]
      obtain ⟨k, rfl⟩ := Nat.exists_eq_succ_of_ne_zero (Nat.ne_zero_of_lt short)
      obtain ⟨j, rfl⟩ := Nat.exists_eq_succ_of_ne_zero (Nat.ne_zero_of_lt hj)
      have offset : real time = real (outer + (time - outer)) := by rw [add_sub_cancel]
      nth_rewrite 2 [offset]
      exact Chain.tallies_run ht ht' hu hf within (short.trans_le limit) fun later' within' =>
        ih (later.trans later') within' (Nat.le_of_lt_succ short) ((Nat.le_succ k).trans limit)
          (Nat.le_of_succ_le_succ hj)

end Inside

end Turns

section Updates

variable {t : Timing Exact} {now stop : ℝ} {bs : List (Behavior Exact)}
  {current : Option (Behavior Exact)} {fresh : Bool}

theorem Timing.Endless.update_chain (h : t.Endless now) (hw : now ≤ stop) (offset : Exact)
    (stage : Stage Exact) :
    (Behavior.chain t (.list bs) current offset fresh).update ⟨real now, real stop⟩ stage =
      Chain.run { t with lastStop := some (real stop) } ⟨real now, real stop⟩ (real stop)
        Chain.stepLimit (real now) ⟨.of bs, current.map Behavior.wake, offset, fresh⟩ stage := by
  rw [Behavior.update_chain, Chain.update, h.enter hw]
  show Chain.run _ _ (Window.stopWithin _ t.lifespan) _ _ _ _ = _
  rw [stopWithin_endless h.lifespan]
  rfl

theorem Chain.update_new (hn : t.lastStop = none) (hl : t.lifespan = Scalar.infinity)
    (hw : 0 ≤ stop) (offset : Exact) (stage : Stage Exact) :
    (Behavior.chain t (.list bs) current offset fresh).update ⟨real 0, real stop⟩ stage =
      run { t with lastStop := some (real stop) } ⟨real 0, real stop⟩ (real stop) stepLimit (real 0)
        ⟨.of bs.tail, bs.head?.map Behavior.wake, real 0, true⟩ stage := by
  rw [Behavior.update_chain, update, Timing.enter_new hn hw]
  cases bs <;>
  · show run _ _ (Window.stopWithin _ t.lifespan) _ _ _ _ = _
    rw [Timing.stopWithin_endless hl, Exact.zero_eq_real]
    rfl

end Updates

theorem Flattens.starts_turns {flat nested : List (Behavior Exact)} (h : Flattens flat nested) :
    Starts flat nested ∧ Turns flat nested := by
  induction h with
  | nil =>
    have starts : Starts [] [] := by
      intro t t' start stop now k m stage ht ht' _ _ hk _ _ hm
      obtain ⟨k, rfl⟩ := Nat.exists_eq_succ_of_ne_zero hk.ne'
      obtain ⟨m, rfl⟩ := Nat.exists_eq_succ_of_ne_zero hm.ne'
      exact .ok rfl (.ended ht ht')
    exact ⟨starts, starts.turns .nil⟩
  | @cons b flat nested hf ih =>
    obtain ⟨_, turns⟩ := ih
    have starts : Starts (b :: flat) (b :: nested) := by
      intro t t' start stop now k m stage ht ht' hn hk _ limit hm _
      obtain ⟨k, rfl⟩ := Nat.exists_eq_succ_of_ne_zero (Nat.ne_zero_of_lt hk)
      obtain ⟨m, rfl⟩ := Nat.exists_eq_succ_of_ne_zero (Nat.ne_zero_of_lt hm)
      exact Tallies.bind _ fun answer => turns.answered hf ht ht' hn (Nat.le_of_succ_le_succ hk)
        limit (Nat.le_of_succ_le_succ hm) _ answer
    exact ⟨starts, starts.turns (.cons b hf)⟩
  | @splice timing b bs flat nested hnew hl hf ih =>
    obtain ⟨_, turns⟩ := ih
    have starts : Starts (b :: (bs ++ flat))
        ((Behavior.sequence (b :: bs)).withTiming timing :: nested) := by
      intro t t' start stop now k m stage ht ht' hn hk _ limit hm _
      obtain ⟨k, rfl⟩ := Nat.exists_eq_succ_of_ne_zero (Nat.ne_zero_of_lt hk)
      obtain ⟨m, rfl⟩ := Nat.exists_eq_succ_of_ne_zero (Nat.ne_zero_of_lt hm)
      have hk := Nat.le_of_succ_le_succ hk
      obtain ⟨j, hj⟩ : ∃ j, Chain.stepLimit = j + 1 := ⟨_, rfl⟩
      let u : Timing Exact := { timing with lastStop := some (real (stop - now)) }
      have hu : u.Endless (stop - now) := ⟨hl, rfl⟩
      have short : bs.length ≤ j := by
        simp only [List.length_append] at hk
        omega
      have key : Tallies (Levels stop)
          (Chain.run t ⟨start, real stop⟩ (real stop) (k + 1) (real now)
            ⟨.of (bs ++ flat), some b.wake, real (now + 0), true⟩ stage)
          (Chain.run u ⟨real 0, real (stop - now)⟩ (real (stop - now)) (j + 1) (real (now - now))
              ⟨.of bs, some b.wake, real 0, true⟩ stage >>=
            Chain.answered t' ⟨start, real stop⟩ (real stop) m (real now) (.of nested)
              (real now)) :=
        Chain.tallies_run ht ht' hu hf hn (hk.trans_lt limit) fun later within =>
          turns.inside hf ht ht' hu (Nat.le_of_succ_le_succ hm) bs later within hk
            ((Nat.le_succ k).trans limit) short
      rw [add_zero, sub_self] at key
      have driven : ((Behavior.sequence (b :: bs)).withTiming timing).wake.update
          (Chain.childWindow (real now) (real stop) (real now) true) stage =
          Chain.run u ⟨real 0, real (stop - now)⟩ (real (stop - now)) (j + 1) (real 0)
            ⟨.of bs, some b.wake, real 0, true⟩ stage := by
        rw [childWindow_real, ← hj]
        exact Chain.update_new hnew hl (sub_nonneg.2 hn) 0 stage
      show Tallies _ _ (Chain.run t' ⟨start, real stop⟩ (real stop) (m + 1) (real now)
        ⟨.of nested, some (Behavior.wake _), real now, true⟩ stage)
      rw [Chain.run_succ _ _ _ m, driven]
      exact key
    exact ⟨starts, starts.turns (.splice b bs hnew hl hf)⟩

/-- A window that comes next finds both chains where the one before has left both. -/
theorem Levels.update {now stop : ℝ} {b b' : Behavior Exact} (h : Levels now b b')
    (hw : now ≤ stop) (stage : Stage Exact) : Tallies (Levels stop)
      (b.update ⟨real now, real stop⟩ stage) (b'.update ⟨real now, real stop⟩ stage) := by
  have entered : ∀ {t : Timing Exact} {past : ℝ}, t.Endless past → ∀ stop : ℝ,
      ({ t with lastStop := some (real stop) } : Timing Exact).Endless stop :=
    fun ht _ => ⟨ht.lifespan, rfl⟩
  obtain ⟨j, hj⟩ : ∃ j, Chain.stepLimit = j + 1 := ⟨_, rfl⟩
  cases h with
  | new start hn hl hn' hl' hf hk =>
    subst start
    obtain ⟨starts, _⟩ := hf.starts_turns
    rw [Chain.update_new hn hl hw, Chain.update_new hn' hl' hw]
    exact starts ⟨hl, rfl⟩ ⟨hl', rfl⟩ hw hk (by decide) le_rfl (hf.length_le.trans hk) (by decide)
  | ended ht ht' =>
    rw [ht.update_chain hw, ht'.update_chain hw]
    exact .ok rfl (.ended (entered ht stop) (entered ht' stop))
  | due ht ht' hf hk =>
    obtain ⟨starts, _⟩ := hf.starts_turns
    rw [ht.update_chain hw, ht'.update_chain hw]
    exact starts (entered ht stop) (entered ht' stop) hw hk (by decide) le_rfl
      (hf.length_le.trans hk) (by decide)
  | outside ht ht' hf hk =>
    obtain ⟨_, turns⟩ := hf.starts_turns
    rw [ht.update_chain hw, ht'.update_chain hw, hj]
    have hk := Nat.le_of_lt_succ (hj ▸ hk)
    exact Tallies.bind _ fun answer => turns.answered hf (entered ht stop)
      (entered ht' stop) hw hk (hj ▸ Nat.lt_succ_self j) (hf.length_le.trans hk) _ answer
  | @inside t t' u flat nested rest child outer inner fresh ht ht' hu hf hk =>
    obtain ⟨_, turns⟩ := hf.starts_turns
    have hk' := Nat.le_of_lt_succ (hj ▸ hk)
    have parts : flat.length ≤ j ∧ rest.length ≤ j := by
      simp only [List.length_append] at hk'
      omega
    have hu' := entered hu (stop - outer)
    have driven : (Behavior.wake (.chain u (.list rest) (some child) (real inner) fresh)).update
        (Chain.childWindow (real now) (real stop) (real outer) false) stage =
        Chain.run { u with lastStop := some (real (stop - outer)) }
          ⟨real (now - outer), real (stop - outer)⟩ (real (stop - outer)) (j + 1)
          (real (now - outer)) ⟨.of rest, some child.wake, real inner, fresh⟩ stage := by
      rw [childWindow_real, ← hj]
      exact hu.update_chain (sub_le_sub_right hw outer) _ stage
    rw [ht.update_chain hw, ht'.update_chain hw, hj, Option.map_some, Option.map_some,
      Chain.run_succ { t' with lastStop := some (real stop) }, driven]
    exact Chain.tallies_run (entered ht stop) (entered ht' stop) hu' hf hw hk fun later within =>
      turns.inside hf (entered ht stop) (entered ht' stop) hu' (hf.length_le.trans parts.1) rest
        later within hk' (hj ▸ Nat.le_succ j) parts.2

def Behavior.answers {α : Type} [Scalar α] (b : Behavior α) (runs : List (Window α × Stage α)) :
    Except (Fault α) (List (α × Stage α)) :=
  (b.across runs).map (List.map fun reply => (reply.leftover, reply.stage))

theorem Behavior.answers_cons {α : Type} [Scalar α] (b : Behavior α) (w : Window α)
    (stage : Stage α) (rest : List (Window α × Stage α)) :
    b.answers ((w, stage) :: rest) = b.update w stage >>= fun reply =>
      (reply.behavior.answers rest).map ((reply.leftover, reply.stage) :: ·) := by
  rw [answers, across]
  cases b.update w stage with
  | error fault => rfl
  | ok reply =>
    show (reply.behavior.across rest >>= _).map _ = ((reply.behavior.across rest).map _).map _
    cases reply.behavior.across rest <;> rfl

theorem Levels.answers_eq (runs : List (Window Exact × Stage Exact)) : ∀ {now : ℝ}
    {b b' : Behavior Exact}, Levels now b b' → Contiguous now (runs.map Prod.fst) →
    b.answers runs = b'.answers runs := by
  induction runs with
  | nil => exact fun _ _ => rfl
  | cons run rest ih =>
    obtain ⟨w, stage⟩ := run
    rintro now b b' levels ⟨stop, hw, rfl, contiguous⟩
    have tallies := levels.update hw stage
    rw [Behavior.answers_cons, Behavior.answers_cons]
    generalize b.update ⟨real now, real stop⟩ stage = answer at tallies ⊢
    generalize b'.update ⟨real now, real stop⟩ stage = answer' at tallies ⊢
    cases tallies with
    | error fault => rfl
    | @ok leftover _ after after' stage same levels =>
      subst same
      show (after.answers rest).map _ = (after'.answers rest).map _
      rw [ih levels contiguous]

/-- A sequence inside a sequence may as well be written out, as long as no more than a hundred
behaviors come one after the other: window by window, whatever stages they find, both leave the
same stage and answer the same, or meet the same fault. -/
theorem sequence_flattens (xs zs : List (Behavior Exact)) {ys : List (Behavior Exact)}
    (nonempty : ys ≠ []) (limit : xs.length + ys.length + zs.length ≤ 100)
    (outer inner flat : Easing) {runs : List (Window Exact × Stage Exact)}
    (hw : Contiguous 0 (runs.map Prod.fst)) :
    let endless (easing : Easing) (bs : List (Behavior Exact)) : Behavior Exact :=
      (Behavior.sequence bs).withTiming ⟨easing, Scalar.infinity, none⟩
    (endless outer (xs ++ [endless inner ys] ++ zs)).answers runs =
      (endless flat (xs ++ ys ++ zs)).answers runs := by
  intro endless
  obtain ⟨y, ys, rfl⟩ := List.exists_cons_of_ne_nil nonempty
  have spliced : Flattens (xs ++ y :: (ys ++ zs)) (xs ++ endless inner (y :: ys) :: zs) :=
    (Flattens.splice y ys rfl rfl (.refl zs)).append_left xs
  have short : (xs ++ y :: (ys ++ zs)).length ≤ Chain.stepLimit := by
    simp only [List.length_append, List.length_cons] at limit ⊢
    show _ ≤ 100
    omega
  have levels : Levels 0 (endless flat (xs ++ (y :: ys) ++ zs))
      (endless outer (xs ++ [endless inner (y :: ys)] ++ zs)) := by
    rw [List.append_assoc, List.append_assoc]
    exact .new rfl rfl rfl rfl rfl spliced short
  exact (levels.answers_eq runs hw).symm

/-- A second of waiting, then half a second and a change of model, written as one sequence inside
the other, in windows that end in the middle of the first part and in that of the second one. -/
theorem sequence_flattens_pauses :
    let pause (x : ℝ) : Behavior Exact := Behavior.pause.withTiming (.ofLifespan (real x))
    let runs (stage : Stage Exact) : List (Window Exact × Stage Exact) :=
      [(⟨real 0, real (1 / 2)⟩, stage), (⟨real (1 / 2), real (5 / 4)⟩, stage),
        (⟨real (5 / 4), real 3⟩, stage)]
    let become : Behavior Exact := .switch (.become .orb)
    let endless (bs : List (Behavior Exact)) : Behavior Exact :=
      (Behavior.sequence bs).withTiming ⟨.linear, Scalar.infinity, none⟩
    ∀ stage, Contiguous 0 ((runs stage).map Prod.fst) ∧ [pause (1 / 2), become] ≠ [] ∧
      (endless [pause 1, endless [pause (1 / 2), become]]).answers (runs stage) =
        (endless [pause 1, pause (1 / 2), become]).answers (runs stage) := by
  intro pause runs become endless stage
  have contiguous : Contiguous 0 ((runs stage).map Prod.fst) :=
    ⟨1 / 2, by norm_num, rfl, 5 / 4, by norm_num, rfl, 3, by norm_num, rfl, trivial⟩
  have nonempty : [pause (1 / 2), become] ≠ [] := by simp
  exact ⟨contiguous, nonempty,
    sequence_flattens [pause 1] [] nonempty (by decide) .linear .linear .linear contiguous⟩

end ParticlePatterns
