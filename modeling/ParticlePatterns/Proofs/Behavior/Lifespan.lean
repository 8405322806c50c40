import ParticlePatterns.Proofs.Behavior.Answers
import ParticlePatterns.Proofs.Behavior.Completion
import ParticlePatterns.Proofs.Pattern.Yields

/-!
# Lifespans as bounds

A behavior with a finite lifespan is complete in the first window that reaches the
lifespan, if not before, and then no later than at the lifespan. The parts of a chain, and
branches, get their windows cut off there. Only a lifespan of nothing cuts nothing off: of
its first window the whole is handed back, unless all parts came to their end within it and
took some time.
-/

set_option autoImplicit false

namespace ParticlePatterns

open Exact (real)

theorem Ready.inTime {now stop : ℝ} {b : Behavior Exact} (h : Ready now b) (hk : Known b)
    (hw : now ≤ stop) (stage : Stage Exact) :
    ∃ reply, b.update ⟨real now, real stop⟩ stage = .ok reply ∧
      InTime b.timing.lifespan now stop reply ∧ Known reply.behavior := by
  obtain ⟨reply, hu, inTime, _, known⟩ := h.serves_unwatched hk stop (sub_nonneg.2 hw) stage
  exact ⟨reply, hu, inTime, known⟩

section Instants

/-- Not driven so far, and of no duration: an effect of no lifespan, or anything made of
such parts that is not cut off later. -/
inductive Instantaneous : Behavior Exact → Prop
  | leaf {timing : Timing Exact} {effect : Effect Exact} : timing.lastStop = none →
      timing.lifespan = real 0 → Instantaneous (.leaf timing effect)
  | emit {timing : Timing Exact} {batch : Batch} {body : Gen Exact (Behavior Exact)} :
      timing.lastStop = none → timing.lifespan = real 0 → Instantaneous (.emit timing batch body)
  | chain {timing : Timing Exact} {supply : Supply Exact} {current : Option (Behavior Exact)}
      {offset : Exact} {fresh : Bool} : timing.lastStop = none →
      (timing.lifespan = real 0 ∨ timing.lifespan = Scalar.infinity) →
      (∀ b, supply.Gives b → Instantaneous b) →
      Instantaneous (.chain timing supply current offset fresh)
  | parallel {timing : Timing Exact} {branches : List (Behavior Exact × Option Exact)} :
      timing.lastStop = none →
      (timing.lifespan = real 0 ∨ timing.lifespan = Scalar.infinity) →
      (∀ p ∈ branches, p.2 = none) → (∀ p ∈ branches, Instantaneous p.1) →
      Instantaneous (.parallel timing branches)

def HandsBack (stop : ℝ) (b : Behavior Exact) : Prop :=
  ∀ stage reply, b.update ⟨real 0, real stop⟩ stage = .ok reply → ¬reply.leftover < 0 →
    reply.leftover = real stop

variable {timing : Timing Exact} {stop : ℝ}

theorem Timing.verdict_eq_stop
    (hl : timing.lifespan = real 0 ∨ timing.lifespan = Scalar.infinity)
    (hn : ¬timing.verdict ⟨real 0, real stop⟩ < 0) :
    timing.verdict ⟨real 0, real stop⟩ = real stop := by
  have past := Timing.lifespan_le_of_verdict hn
  obtain hl | hl := hl
  · rw [hl] at past
    simp [verdict, hl, past]
  · rw [hl] at past
    exact absurd past Exact.not_infinity_le_real

theorem Timing.stopWithin_eq_stop
    (hl : timing.lifespan = real 0 ∨ timing.lifespan = Scalar.infinity) :
    Window.stopWithin ⟨real 0, real stop⟩ timing.lifespan = real stop := by
  obtain hl | hl := hl <;> simp [Window.stopWithin, hl]

theorem Chain.Course.eq_stop
    (hl : timing.lifespan = real 0 ∨ timing.lifespan = Scalar.infinity) (steps : Nat) :
    ∀ {stage : Stage Exact} {supply : Supply Exact} {child : Behavior Exact} {reply : Reply Exact},
    Course Behavior.update timing ⟨real 0, real stop⟩ (real stop) steps (real 0) supply (some child)
      (real 0) true stage reply → HandsBack stop child → (∀ b, supply.Gives b → HandsBack stop b) →
    ¬reply.leftover < 0 → reply.leftover = real stop := by
  induction steps with
  | zero =>
    intro stage supply child reply course _ _ hn
    cases course
    exact Timing.verdict_eq_stop hl hn
  | succ steps ih =>
    intro stage supply child reply course back backs hn
    obtain ⟨answer, ha, rest⟩ := course_succ_iff.1 course
    have start : childStart 0 0 true = 0 := rfl
    rw [childWindow_real, start, sub_zero] at ha
    -- a turn of a child that hands its window back ends where it began
    have still : ¬answer.leftover < 0 →
        Scalar.max (real stop - answer.leftover) (real 0) = real 0 := fun hnn => by
      simp [back _ _ ha hnn]
    cases rest with
    | waits => exact Timing.verdict_eq_stop hl hn
    | ends hnn => simp [still hnn]
    | defers => exact Timing.verdict_eq_stop hl hn
    | turns hnn hnext _ course =>
      obtain ⟨given, left, _⟩ := Supply.next_eq_ok hnext
      rw [still hnn] at course
      exact ih course (backs _ (given _ rfl)) (fun b hb => backs b (left b hb)) hn

theorem Branch.Course.latest_eq {branches : List (Behavior Exact × Option Exact)} {latest : Exact}
    {complete : Bool} {stage : Stage Exact} {result : Branch.Result Exact}
    (h : Course Behavior.update (real 0) (real stop) branches latest complete stage result) :
    (∀ p ∈ branches, p.2 = none) → (∀ p ∈ branches, HandsBack stop p.1) → latest = real 0 →
    result.latest = real 0 := by
  induction h with
  | nil => exact fun _ _ hl => hl
  | done => exact fun none _ _ => by cases none _ List.mem_cons_self
  | waits _ _ _ ih =>
    intro none backs hl
    exact ih (List.forall_mem_cons.1 none).2 (List.forall_mem_cons.1 backs).2 hl
  | ends ha hn _ ih =>
    intro none backs hl
    refine ih (List.forall_mem_cons.1 none).2 (List.forall_mem_cons.1 backs).2 ?_
    simp [hl, backs _ List.mem_cons_self _ _ ha hn]

theorem Instantaneous.handsBack {b : Behavior Exact} (h : Instantaneous b) (hw : 0 ≤ stop) :
    HandsBack stop b := by
  induction h with
  | leaf _ hl =>
    intro stage reply hu hn
    obtain ⟨_, _, he, rfl⟩ := Effect.update_eq_ok.1 hu
    obtain ⟨_, rfl⟩ := Timing.enter_eq_ok he
    exact Timing.verdict_eq_stop (.inl hl) hn
  | emit _ hl =>
    intro stage reply hu hn
    obtain ⟨_, _, _, he, _, rfl⟩ := Batch.update_eq_ok.1 hu
    obtain ⟨_, rfl⟩ := Timing.enter_eq_ok he
    exact Timing.verdict_eq_stop (.inl hl) hn
  | @chain timing _ _ _ _ hs hl _ ih =>
    intro stage reply hu hn
    rw [Behavior.update_chain, Chain.update_first_iff hs hw, Timing.stopWithin_eq_stop hl] at hu
    obtain ⟨taken, after, rng, htaken, course⟩ := hu
    obtain ⟨given, left, _⟩ := Supply.next_eq_ok htaken
    cases taken with
    | none =>
      cases course
      exact Exact.real_sub_real.trans (congrArg real (sub_zero stop))
    | some child =>
      have hl' : { timing with lastStop := some (real stop) }.lifespan = real 0 ∨
          { timing with lastStop := some (real stop) }.lifespan = Scalar.infinity := hl
      exact course.eq_stop hl' Chain.stepLimit (ih child (given child rfl))
        (fun b hb => ih b (left b hb)) hn
  | parallel hs hl none _ ih =>
    intro stage reply hu hn
    rw [Behavior.update_parallel, Branch.update_iff (.inl ⟨hs, rfl⟩) hw,
      Timing.stopWithin_eq_stop hl] at hu
    obtain ⟨result, course, rfl⟩ := hu
    cases complete : result.complete with
    | true => simp [course.latest_eq none ih rfl]
    | false =>
      simp only [complete, Bool.false_eq_true, if_false] at hn ⊢
      exact Timing.verdict_eq_stop hl hn

end Instants

structure EndsWithin (l : ℝ) (b : Behavior Exact) (ws : List (Window Exact)) (w : Window Exact)
    (r : Exact) (after : Behavior Exact) : Prop where
  /-- No window before it reaches the lifespan. -/
  first : ∃ before behind, ws = before ++ w :: behind ∧ ∀ v ∈ before, v.stop < real l
  nonneg : 0 ≤ r
  /-- The time of the completion lies in the window, and not behind the lifespan. -/
  bound : ∃ time : ℝ, w.stop - r = real time ∧ w.start ≤ real time ∧ (0 < l → time ≤ l)
  /-- Where the lifespan is nothing it is the first window, and all of it is left over unless
  there is nothing left to drive, and some of what there was took time. -/
  back : l = 0 → ws.head? = some w ∧ (r = w.stop ∨ (after.Exhausted ∧ ¬Instantaneous b))

theorem Ready.through {l : ℝ} (ws : List (Window Exact)) : ∀ {now : ℝ} {b : Behavior Exact},
    0 ≤ now → Ready now b → Known b → b.timing.lifespan = real l → Contiguous now ws →
    ∀ stage : Stage Exact, ∃ o, b.through ws stage = .ok o ∧
      (o.completion = none → ∀ w ∈ ws, w.stop < real l) ∧
      ∀ w r, o.completion = some (w, r) → EndsWithin l b ws w r o.behavior := by
  induction ws with
  | nil => exact fun _ _ _ _ _ stage => ⟨_, rfl, by simp, by simp⟩
  | cons w rest ih =>
    rintro now b h0 ready known hl ⟨stop, hw, rfl, contiguous⟩ stage
    obtain ⟨reply, hu, inTime, known'⟩ := ready.inTime known hw stage
    rw [hl] at inTime
    obtain ⟨negative, on, ready'⟩ | ⟨time, hr, later, within, bound⟩ := inTime
    · have same : reply.behavior.timing.lifespan = real l := by
        rw [Behavior.timing_of_update hu]
        exact hl
      obtain ⟨o, ho, open', closed⟩ := ih (h0.trans hw) ready' known' same contiguous
        reply.stage
      refine ⟨o, ?_, fun hn => List.forall_mem_cons.2 ⟨on, open' hn⟩, fun w r hc => ?_⟩
      · rw [Behavior.through_of_not_nonneg hu (Exact.not_le_of_lt negative), ho]
      · obtain ⟨⟨before, behind, e, all⟩, nonneg, bound, _⟩ := closed w r hc
        refine ⟨⟨_ :: before, behind, by rw [e, List.cons_append],
          List.forall_mem_cons.2 ⟨on, all⟩⟩, nonneg, bound, ?_⟩
        rintro rfl
        exact absurd (Exact.real_lt_real.1 on) (not_lt_of_ge (h0.trans hw))
    · have nonneg : 0 ≤ reply.leftover := by
        rw [hr]
        simpa using within
      have complete : ¬reply.leftover < 0 := fun negative => Exact.not_le_of_lt negative nonneg
      refine ⟨_, Behavior.through_of_nonneg hu nonneg, nofun, ?_⟩
      rintro w r ⟨⟩
      refine ⟨⟨[], rest, rfl, by simp⟩, nonneg, ⟨time, by simp [hr], later, fun pos => ?_⟩, ?_⟩
      · obtain early | ⟨nothing, _⟩ := bound
        · exact early
        · exact absurd (Exact.real.inj nothing) pos.ne'
      · rintro rfl
        refine ⟨rfl, ?_⟩
        obtain early | ⟨_, rfl, exhausted⟩ := bound
        · have e : time = 0 := le_antisymm early (h0.trans later)
          exact .inl (by simp [hr, e])
        · by_cases instant : Instantaneous b
          · exact .inl (instant.handsBack hw _ _ hu complete)
          · exact .inr ⟨exhausted, instant⟩

/-- Whatever it is made of, whatever the windows and whatever the stage: a loop, a
repetition, a sequence or branches with a finite lifespan, and any other behavior with one,
are complete in the first window that reaches the lifespan, if not before, and no later
than at the lifespan. -/
theorem complete_within_lifespan {b : Behavior Exact} {l : ℝ} (hb : Built b)
    (hl : b.timing.lifespan = real l) {ws : List (Window Exact)} (hw : Contiguous 0 ws)
    (stage : Stage Exact) :
    ∃ o, b.through ws stage = .ok o ∧
      (o.completion = none → ∀ w ∈ ws, w.stop < real l) ∧
      ∀ w r, o.completion = some (w, r) → EndsWithin l b ws w r o.behavior :=
  hb.ready.through ws (le_refl 0) ⟨[], .start hb⟩ hl hw stage

section Runs

noncomputable abbrev Behavior.pauseFor (lifespan : ℝ) : Behavior Exact :=
  pause.withTiming (.ofLifespan (real lifespan))

theorem Behavior.built_pauseFor {lifespan : ℝ} (h : 0 ≤ lifespan) : Built (pauseFor lifespan) :=
  built_withTiming .pause ⟨rfl, Exact.zero_eq_real ▸ h⟩

/-- A unit after another one, cut off after half a unit: complete in the second window. -/
theorem complete_within_lifespan_sequence :
    let b := (Behavior.sequence [.pauseFor 1, .pauseFor 1]).withTiming (.ofLifespan (real (1 / 2)))
    let ws : List (Window Exact) := [⟨real 0, real (1 / 4)⟩, ⟨real (1 / 4), real 3⟩]
    let stage : Stage Exact := ⟨.initial, .ofSeed 1, #[]⟩
    Built b ∧ b.timing.lifespan = real (1 / 2) ∧ Contiguous 0 ws ∧
      ∃ o w r, b.through ws stage = .ok o ∧ o.completion = some (w, r) ∧
        ∃ time : ℝ, w.stop - r = real time ∧ time ≤ 1 / 2 := by
  intro b ws stage
  have parts : ∀ c ∈ [Behavior.pauseFor 1, .pauseFor 1], Built c := by
    simp [Behavior.built_pauseFor]
  have built : Built b :=
    Behavior.built_withTiming (.sequence parts) ⟨rfl, by simp [Timing.ofLifespan]⟩
  have contiguous : Contiguous 0 ws :=
    ⟨1 / 4, by norm_num, rfl, 3, by norm_num, rfl, trivial⟩
  obtain ⟨o, ho, open', closed⟩ := complete_within_lifespan built rfl contiguous stage
  refine ⟨built, rfl, contiguous, o, ?_⟩
  cases hc : o.completion with
  | none =>
    have late : real 3 < real (1 / 2) := open' hc ⟨real (1 / 4), real 3⟩ (by simp [ws])
    rw [Exact.real_lt_real] at late
    norm_num at late
  | some completion =>
    obtain ⟨time, e, _, early⟩ := (closed _ _ hc).bound
    exact ⟨_, _, ho, rfl, time, e, early (by norm_num)⟩

/-! A lifespan of nothing does not cut the first window off, so what comes to its end within
it ends behind the lifespan. -/

section Overruns

variable {c : Behavior Exact} {d stop : ℝ}

theorem Due.exists_ended (due : Due 0 c d) (hd : d < stop) (stage : Stage Exact) :
    ∃ answer, c.update ⟨real 0, real stop⟩ stage = .ok answer ∧
      answer.leftover = real (stop - d) ∧ ¬answer.leftover < 0 := by
  obtain ⟨answer, ha, settled⟩ := due.keeps stop (due.le.trans hd.le) stage
  have hr := settled.complete_of_lt hd
  refine ⟨answer, ha, hr, ?_⟩
  rw [hr]
  simpa using hd.le

theorem Due.overruns_sequence (due : Due 0 c d) (hd : d < stop) (stage : Stage Exact) :
    ∃ reply, ((Behavior.sequence [c]).withTiming (.ofLifespan (real 0))).update
      ⟨real 0, real stop⟩ stage = .ok reply ∧ reply.leftover = real (stop - d) := by
  obtain ⟨answer, ha, hr, complete⟩ := due.exists_ended hd stage
  let timing : Timing Exact := .ofLifespan (real 0)
  have start : Chain.childWindow (real 0) (real stop) (real 0) true = ⟨real 0, real stop⟩ := by
    simp [childStart]
  have course : ∃ reply, Chain.Course Behavior.update { timing with lastStop := some (real stop) }
      ⟨real 0, real stop⟩ (Window.stopWithin ⟨real 0, real stop⟩ timing.lifespan) Chain.stepLimit
      (real 0) (.list []) (some c) (real 0) true stage reply ∧
      reply.leftover = real (stop - d) := by
    rw [Timing.stopWithin_eq_stop (.inl rfl)]
    exact ⟨_, .ends (start ▸ ha) complete rfl, by simp [hr, due.le]⟩
  obtain ⟨reply, course, e⟩ := course
  refine ⟨reply, ?_, e⟩
  rw [Behavior.sequence, Behavior.ofSupply, Behavior.withTiming, Behavior.update_chain]
  exact (Chain.update_first_iff rfl (due.le.trans hd.le)).2 ⟨_, _, _, rfl, course⟩

theorem Due.overruns_together (due : Due 0 c d) (hd : d < stop) (stage : Stage Exact) :
    ∃ reply, ((Behavior.together [c]).withTiming (.ofLifespan (real 0))).update
      ⟨real 0, real stop⟩ stage = .ok reply ∧ reply.leftover = real (stop - d) := by
  obtain ⟨answer, ha, hr, complete⟩ := due.exists_ended hd stage
  let timing : Timing Exact := .ofLifespan (real 0)
  have course : ∃ result, Branch.Course Behavior.update (real 0)
      (Window.stopWithin ⟨real 0, real stop⟩ timing.lifespan) [(c, none)] (real 0) true stage
      result ∧ result.complete = true ∧ result.latest = real d := by
    rw [Timing.stopWithin_eq_stop (.inl rfl)]
    exact ⟨_, .ends ha complete .nil, rfl, by simp [hr, due.le]⟩
  obtain ⟨result, course, all, latest⟩ := course
  have hw : 0 ≤ stop := due.le.trans hd.le
  rw [Behavior.together, Behavior.withTiming, Behavior.update_parallel]
  refine ⟨_, (Branch.update_iff (.inl ⟨rfl, rfl⟩) hw).2 ⟨result, course, rfl⟩, ?_⟩
  simp [all, latest]

/-- Of half a unit in a window of one, half a unit is left over and not all of it. -/
theorem complete_behind_lifespan :
    let w : Window Exact := ⟨real 0, real 1⟩
    let stage : Stage Exact := ⟨.initial, .ofSeed 1, #[]⟩
    ∀ b ∈ [Behavior.sequence [.pauseFor (1 / 2)], Behavior.together [.pauseFor (1 / 2)]],
      let b := b.withTiming (.ofLifespan (real 0))
      Built b ∧ b.timing.lifespan = real 0 ∧ ∃ o, b.through [w] stage = .ok o ∧
        o.completion = some (w, real (1 / 2)) := by
  intro w stage
  have parts : ∀ c ∈ [Behavior.pauseFor (1 / 2)], Built c := by simp [Behavior.built_pauseFor]
  have fresh : (Timing.ofLifespan (real 0)).Pristine := ⟨rfl, by simp [Timing.ofLifespan]⟩
  have due : Due 0 (.pauseFor (1 / 2)) (1 / 2) :=
    .leaf (.inl ⟨rfl, rfl⟩) rfl (le_refl 0) (by norm_num)
  have half : (1 / 2 : ℝ) < 1 := by norm_num
  have ends : ∀ b : Behavior Exact, (∃ reply, b.update w stage = .ok reply ∧
      reply.leftover = real (1 - 1 / 2)) → ∃ o, b.through [w] stage = .ok o ∧
        o.completion = some (w, real (1 / 2)) := by
    rintro b ⟨reply, hu, hr⟩
    have e : (1 - 1 / 2 : ℝ) = 1 / 2 := by norm_num
    rw [e] at hr
    exact ⟨_, Behavior.through_of_nonneg hu (by simp [hr]), by simp [hr]⟩
  simp only [List.mem_cons, List.not_mem_nil, or_false, forall_eq_or_imp, forall_eq]
  exact ⟨⟨Behavior.built_withTiming (.sequence parts) fresh, rfl,
      ends _ (due.overruns_sequence half stage)⟩,
    Behavior.built_withTiming (.together parts) fresh, rfl,
      ends _ (due.overruns_together half stage)⟩

end Overruns

end Runs

end ParticlePatterns
