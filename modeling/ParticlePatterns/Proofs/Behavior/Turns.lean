import ParticlePatterns.Proofs.Behavior.Joining

/-!
# Joining windows of a chain

The boundary between two windows falls into the time of one child, or right between two of
them, or behind the last one. The child it falls into joins the windows; whatever comes
behind it goes through the same turns as in the longer window.
-/

set_option autoImplicit false

namespace ParticlePatterns

open Exact (real)

variable {A : Set Component}

theorem Supply.Amounts.counts {δ : Behavior Exact → ℝ} {s : Supply Exact} {n : Nat} {total : ℝ}
    (h : s.Amounts δ n total) : s.Counts n := by
  match s, h with
  | .list rest, ⟨hn, _⟩ => exact hn.symm
  | .body _ _ (some k), ⟨hn, _⟩ => exact congrArg some hn.symm

namespace Chain

variable {timing : Timing Exact} {start mid stop cut : ℝ}

/-- What the window behind the seam does to a chain that is still running. -/
theorem course_of_behind (seam : timing.Seam start mid stop cut) (hm : mid < stop)
    {supply : Supply Exact} {current : Option (Behavior Exact)} {offset : Exact} {fresh : Bool}
    {stage : Stage Exact} {second : Reply Exact}
    (h : (Behavior.chain { timing with lastStop := some (real mid) } supply current offset
      fresh).update ⟨real mid, real stop⟩ stage = .ok second) :
    Course Behavior.update { timing with lastStop := some (real stop) } ⟨real mid, real stop⟩
      (real cut) stepLimit (real mid) supply current offset fresh stage second := by
  rw [Behavior.update_chain] at h
  have course := (update_running_iff rfl hm.le).1 h
  rw [seam.behind] at course
  exact course

theorem joins_course (seam : timing.Seam start mid stop cut) (steps : Nat) :
    ∀ (stage stage' : Stage Exact) {now offset : ℝ} {n : Nat} {supply : Supply Exact}
    {child : Behavior Exact} {fresh : Bool} {first : Reply Exact}, now < mid → supply.Counts n →
    n < steps → n < stepLimit → supply.Steady → (∀ b, supply.Gives b → Joinable A 0 b) →
    (fresh = true → offset = now) → Joinable A (childStart now offset fresh) child →
    Twin A stage.sprite stage'.sprite → stage.sprite.rotation.IsReal →
    Course Behavior.update { timing with lastStop := some (real mid) } ⟨real start, real mid⟩
      (real mid) steps (real now) supply (some child) (real offset) fresh stage first →
    Joined A mid stop first fun whole => Course Behavior.update
      { timing with lastStop := some (real stop) } ⟨real start, real stop⟩ (real cut) steps
      (real now) supply (some child) (real offset) fresh stage' whole := by
  have hcut := seam.later
  have hstop := hcut.trans_le seam.le_stop
  induction steps with
  | zero =>
    intro stage stage' now offset n supply child fresh first _ _ hn
    exact absurd hn (Nat.not_lt_zero n)
  | succ steps ih =>
    intro stage stage' now offset n supply child fresh first hnow counts hn hlimit steady gives
      late hchild twin hr course
    obtain ⟨answer, ha, rest⟩ := course_succ_iff.1 course
    have begin := childStart_eq late
    have early : childStart now offset fresh < mid - offset := by linarith
    have further : mid - offset < cut - offset := by linarith
    rw [childWindow_real] at ha
    have given : ∀ b, supply.Gives b → Mirrors A b b ∧ Simulates A b b := fun b hb =>
      ⟨(gives b hb).mirrors, (gives b hb).mirrors.simulates⟩
    by_cases negative : answer.leftover < 0
    · obtain ⟨d, later, join⟩ := hchild.continued early further twin hr ha negative
      cases rest with
      | waits _ =>
        refine .inr ⟨seam.unfinished, fun second hs => ?_⟩
        have behind := course_of_behind seam hstop hs
        obtain ⟨k, hk⟩ : ∃ k, stepLimit = k + 1 := ⟨_, rfl⟩
        rw [hk] at behind
        obtain ⟨answer', ha', rest'⟩ := course_succ_iff.1 behind
        rw [childWindow_real] at ha'
        obtain ⟨settled, whole, hwhole, alike⟩ := join _ answer' (.refl _ _) ha'
        rw [← childWindow_real] at hwhole
        -- the turn ends behind both `now` and `mid`, so it does not matter when it began
        have same : ¬answer'.leftover < 0 →
            Scalar.max (real cut - answer'.leftover) (real now) =
            Scalar.max (real cut - answer'.leftover) (real mid) := fun hn => by
          obtain ⟨_, leftover⟩ := settled.complete hn
          rw [max_sub_leftover leftover (by linarith), max_sub_leftover leftover (by linarith)]
        obtain ⟨reply, after, echo⟩ := rest'.echo (echoes A _ _ _ ⟨real start, real stop⟩ _ k) same
          (.inr ⟨n, counts, by omega, hn⟩) steady given alike.leftover alike.behavior alike.twin
        exact ⟨reply, course_succ_iff.2 ⟨whole, hwhole, after⟩,
          (echo.same_timing behind.timing_eq rfl seam.same).alike⟩
      | ends nonneg _ => exact absurd negative nonneg
      | defers nonneg _ _ => exact absurd negative nonneg
      | turns nonneg _ _ _ => exact absurd negative nonneg
    · obtain ⟨d, whole, hd, within, leftover, hwhole, leftover', nonneg', twin'⟩ :=
        hchild.ended early further twin hr ha negative
      have ends := max_sub_leftover leftover (by linarith : now ≤ offset + d)
      have ends' := max_sub_leftover leftover' (by linarith : now ≤ offset + d)
      rw [← childWindow_real] at hwhole
      cases rest with
      | waits h => exact absurd h negative
      | @ends after rng _ hnext =>
        obtain ⟨⟨rng', hnext'⟩, _⟩ := steady.next hnext whole.stage.rng
        refine .inl ⟨?_, _, .ends hwhole nonneg' hnext', twin'⟩
        rw [ends]
        simp only [Exact.real_sub_real, Exact.zero_eq_real, Exact.real_lt_real, not_lt]
        linarith
      | @defers after next rng _ hnext hlate =>
        obtain ⟨⟨rng', hnext'⟩, steady'⟩ := steady.next hnext whole.stage.rng
        obtain ⟨given', left, _⟩ := Supply.next_eq_ok hnext
        obtain ⟨k, rfl, counts'⟩ := counts.next hnext
        have e : offset + d = mid := by
          rw [ends, Exact.real_le_real] at hlate
          linarith
        rw [e] at ends ends'
        refine .inr ⟨seam.unfinished, fun second hs => ?_⟩
        have behind := course_of_behind seam hstop hs
        rw [ends] at behind
        obtain ⟨mirrors, simulates⟩ := given next (given' next rfl)
        have reaches : after.Reaches stepLimit steps := .inr ⟨k, counts', by omega, by omega⟩
        obtain ⟨reply, course', echo⟩ := echoes A _ _ _ ⟨real start, real stop⟩ _ _
          { answer.stage with rng } { whole.stage with rng := rng' } reaches steady'
          (fun b hb => given b (left b hb)) mirrors simulates twin' behind
        rw [← ends'] at course'
        refine ⟨reply, .turns hwhole nonneg' hnext' ?_ course', ?_⟩
        · rw [ends', Exact.real_le_real]
          exact not_le_of_gt hcut
        · exact (echo.same_timing behind.timing_eq rfl seam.same).alike
      | @turns after next rng _ _ hnext hlate course =>
        obtain ⟨⟨rng', hnext'⟩, steady'⟩ := steady.next hnext whole.stage.rng
        obtain ⟨given', left, _⟩ := Supply.next_eq_ok hnext
        obtain ⟨k, rfl, counts'⟩ := counts.next hnext
        rw [ends, Exact.real_le_real, not_le] at hlate
        rw [ends] at course
        have start' : childStart (offset + d) (offset + d) true = 0 := rfl
        have joined := ih { answer.stage with rng } { whole.stage with rng := rng' } hlate counts'
          (by omega) (by omega) steady' (fun b hb => gives b (left b hb)) (fun _ => rfl)
          (start' ▸ gives next (given' next rfl)) twin' (hchild.mirrors.rotation_isReal ha hr)
          course
        refine joined.imp fun reply h => ?_
        rw [← ends'] at h
        refine .turns hwhole nonneg' hnext' ?_ h
        rw [ends', Exact.real_le_real]
        linarith

end Chain

theorem Mirrors.supply {timing : Timing Exact} {supply : Supply Exact}
    {current : Option (Behavior Exact)} {offset : Exact} {fresh : Bool} {b : Behavior Exact}
    (h : Mirrors A (.chain timing supply current offset fresh) b) :
    supply.Steady ∧ ∀ b, supply.Gives b → Mirrors A b b := by
  cases h with
  | idle steady mirrors => exact ⟨steady, mirrors⟩
  | chain steady mirrors _ => exact ⟨steady, mirrors⟩

theorem Due.alive_of_chain {now d : ℝ} {timing : Timing Exact} {supply : Supply Exact}
    {current : Option (Behavior Exact)} {offset : Exact} {fresh : Bool}
    (h : Due now (.chain timing supply current offset fresh) d) : real now < timing.lifespan := by
  cases h with
  | first _ hl => exact Exact.zero_eq_real ▸ hl
  | chain _ _ alive => exact alive

namespace Chain

variable {timing : Timing Exact} {start mid stop d : ℝ}

/-- Whether the lifespan is over at the boundary or not. -/
theorem joins_turns (h0 : 0 ≤ timing.lifespan) (alive : real start < timing.lifespan)
    (hmid : start < mid) (hstop : mid < stop) {stage stage' : Stage Exact} {offset : ℝ} {n : Nat}
    {supply : Supply Exact} {child : Behavior Exact} {fresh : Bool} {first : Reply Exact}
    (counts : supply.Counts n) (limit : n < stepLimit) (steady : supply.Steady)
    (gives : ∀ b, supply.Gives b → Joinable A 0 b) (late : fresh = true → offset = start)
    (hchild : Joinable A (childStart start offset fresh) child)
    (twin : Twin A stage.sprite stage'.sprite) (hr : stage.sprite.rotation.IsReal)
    (settled : Settles mid d first)
    (h : Course Behavior.update { timing with lastStop := some (real mid) }
      ⟨real start, real mid⟩ (Window.stopWithin ⟨real start, real mid⟩ timing.lifespan) stepLimit
      (real start) supply (some child) (real offset) fresh stage first) :
    Joined A mid stop first fun whole => Course Behavior.update
      { timing with lastStop := some (real stop) } ⟨real start, real stop⟩
      (Window.stopWithin ⟨real start, real stop⟩ timing.lifespan) stepLimit (real start) supply
      (some child) (real offset) fresh stage' whole := by
  by_cases on : real mid < timing.lifespan
  · obtain ⟨cut, seam⟩ := Timing.exists_seam h0 on hmid.le hstop
    rw [seam.before] at h
    rw [seam.whole]
    exact joins_course seam stepLimit stage stage' hmid counts limit limit steady gives late hchild
      twin hr h
  · have complete : ¬first.leftover < 0 := fun negative => by
      obtain ⟨_, _, _, _, e⟩ := h.behavior_eq
      have due := settled.due negative
      rw [e] at due
      exact on due.alive_of_chain
    rw [Timing.stopWithin_of_over h0 alive on hstop.le] at h
    have given : ∀ b, supply.Gives b → Mirrors A b b ∧ Simulates A b b := fun b hb =>
      ⟨(gives b hb).mirrors, (gives b hb).mirrors.simulates⟩
    obtain ⟨whole, course, echo⟩ := echoes A _ { timing with lastStop := some (real stop) } _
      ⟨real start, real stop⟩ _ stepLimit stage stage' (.inl rfl) steady given hchild.mirrors
      hchild.mirrors.simulates twin h
    exact .inl ⟨complete, whole, course, echo.twin⟩

end Chain

end ParticlePatterns
