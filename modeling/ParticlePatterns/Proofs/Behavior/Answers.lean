import ParticlePatterns.Proofs.Behavior.Ready

/-!
# Answers

What a behavior that may be driven answers, with a watch on it and on all its parts: while its
lifespan is not over it may go on, and else it tells the time at which it came to its end. That
time lies in the window and not behind the lifespan. The parts get their windows from the
whole, cut off at the lifespan, so this goes from the parts to the whole. Only a lifespan of
nothing cuts nothing off, and what comes to its end by itself then may do so later.
-/

set_option autoImplicit false

namespace ParticlePatterns

open Exact (real)

def InTime (lifespan : Exact) (start stop : ℝ) (reply : Reply Exact) : Prop :=
  (reply.leftover < 0 ∧ real stop < lifespan ∧ Ready stop reply.behavior) ∨
    ∃ time, reply.leftover = real (stop - time) ∧ start ≤ time ∧ time ≤ stop ∧
      (real time ≤ lifespan ∨ (lifespan = real 0 ∧ start = 0 ∧ reply.behavior.Exhausted))

theorem InTime.answer {lifespan : Exact} {start stop : ℝ} {reply : Reply Exact}
    (h : InTime lifespan start stop reply) :
    (reply.leftover < 0 ∧ Ready stop reply.behavior) ∨
      ∃ r, reply.leftover = real r ∧ 0 ≤ r ∧ r ≤ stop - start := by
  obtain ⟨negative, _, ready⟩ | ⟨time, hr, later, within, _⟩ := h
  · exact .inl ⟨negative, ready⟩
  · exact .inr ⟨stop - time, hr, sub_nonneg.2 within, by linarith⟩

structure Clips (lifespan : Exact) (start stop cut : ℝ) : Prop where
  nonneg : 0 ≤ lifespan
  started : real start ≤ lifespan
  later : start ≤ cut
  strict : start < stop → start < cut
  le_stop : cut ≤ stop
  whole : real stop < lifespan → cut = stop
  within : real cut ≤ lifespan ∨ (lifespan = real 0 ∧ start = 0)

theorem Timing.Alive.exists_clips {t : Timing Exact} {now stop : ℝ} (h : t.Alive now)
    (hw : now ≤ stop) : ∃ cut, Window.stopWithin ⟨real now, real stop⟩ t.lifespan = real cut ∧
      Clips t.lifespan now stop cut := by
  by_cases alive : real now < t.lifespan
  · obtain ⟨cut, hc, later, cuts⟩ := exists_cutsAt h.nonneg alive hw
    refine ⟨cut, hc, h.nonneg, Exact.real_le_of_lt alive, later, fun strict => ?_, cuts.le_stop,
      fun on => ?_, .inl cuts.le_lifespan⟩
    · obtain ⟨_, rfl, _⟩ | ⟨e, _⟩ := cuts
      · exact strict
      · rwa [e, Exact.real_lt_real] at alive
    · obtain ⟨_, e, _⟩ | ⟨e, past, _⟩ := cuts
      · exact e
      · rw [e, Exact.real_lt_real] at on
        exact absurd past (not_le_of_gt on)
  · have nothing : t.lifespan = real 0 ∧ now = 0 := by
      obtain ⟨_, rfl, h0⟩ | ⟨_, _, on⟩ := h
      · obtain ⟨l, hl, h0⟩ | hl := Exact.eq_real_or_eq_infinity h0
        · rw [hl, Exact.real_lt_real] at alive
          exact ⟨by rw [hl, le_antisymm (le_of_not_gt alive) h0], rfl⟩
        · simp [hl] at alive
      · exact absurd on alive
    obtain ⟨hl, rfl⟩ := nothing
    exact ⟨stop, if_neg alive, h.nonneg, by simp [hl], hw, id, le_refl stop, fun _ => rfl,
      .inr ⟨hl, rfl⟩⟩

namespace Clips

variable {timing : Timing Exact} {start stop cut : ℝ} {b : Behavior Exact} {stage : Stage Exact}

/-- As long as the lifespan decides, the end comes at the lifespan. -/
theorem verdict (h : Clips timing.lifespan start stop cut)
    (ready : real stop < timing.lifespan → Ready stop b) :
    InTime timing.lifespan start stop ⟨timing.verdict ⟨real start, real stop⟩, b, stage⟩ := by
  obtain ⟨l, hl, _, past, hv⟩ | ⟨on, hv⟩ := @Timing.verdict_cases timing start stop h.nonneg
  · have started := h.started
    rw [hl, Exact.real_le_real] at started
    rw [max_eq_left started] at hv
    exact .inr ⟨l, hv, started, past, .inl (by simp [hl])⟩
  · exact .inl ⟨by simp [hv], on, ready on⟩

/-- Where nothing is left to drive, the end came before the cut. -/
theorem exhausted {lifespan : Exact} {reply : Reply Exact} {time : ℝ}
    (h : Clips lifespan start stop cut) (hr : reply.leftover = real (stop - time))
    (later : start ≤ time) (hc : time ≤ cut) (left : reply.behavior.Exhausted) :
    InTime lifespan start stop reply :=
  .inr ⟨time, hr, later, hc.trans h.le_stop,
    h.within.imp (Exact.real_le_trans hc) fun ⟨hl, hs⟩ => ⟨hl, hs, left⟩⟩

end Clips

structure Lengths (allowed : ℝ → Prop) : Prop where
  of_pos : ∀ {d}, 0 < d → allowed d
  nonneg : ∀ {d}, allowed d → 0 ≤ d

namespace Lengths

variable {allowed : ℝ → Prop} {start stop cut : ℝ}

theorem mono (h : Lengths allowed) {d e : ℝ} (hd : allowed d) (hl : d ≤ e) : allowed e := by
  obtain rfl | hl := hl.eq_or_lt
  · exact hd
  · exact h.of_pos ((h.nonneg hd).trans_lt hl)

theorem le_of_sub (h : Lengths allowed) (hw : allowed (stop - start)) : start ≤ stop :=
  sub_nonneg.1 (h.nonneg hw)

theorem clipped {lifespan : Exact} (h : Lengths allowed) (hw : allowed (stop - start))
    (clips : Clips lifespan start stop cut) : allowed (cut - start) := by
  obtain rfl | hl := (h.le_of_sub hw).eq_or_lt
  · exact h.mono hw (by linarith [clips.later])
  · exact h.of_pos (sub_pos.2 (clips.strict hl))

end Lengths

structure Lenient (allowed : ℝ → Prop) (watch : Watch Exact) : Prop where
  within : ∀ b u, (watch b u).Within u
  passes : ∀ {now stop b}, Ready now b → Known b → allowed (stop - now) → ∀ u,
    watch b u ⟨real now, real stop⟩ = u ⟨real now, real stop⟩

section Parts

variable (allowed : ℝ → Prop) (update : Behavior Exact → Update Exact)

def Serves (now : ℝ) (b : Behavior Exact) : Prop :=
  ∀ stop, allowed (stop - now) → ∀ stage, ∃ reply, update b ⟨real now, real stop⟩ stage =
    .ok reply ∧ InTime b.timing.lifespan now stop reply ∧ Emits stage reply.stage ∧
    Known reply.behavior

structure Stocked (s : Supply Exact) : Prop where
  total : s.Total
  built : ∀ b, s.Gives b → Built b
  serves : ∀ b, s.Gives b → Serves allowed update 0 b

variable {allowed update} {timing : Timing Exact} {start stop cut : ℝ}

namespace Stocked

variable {s : Supply Exact}

theorem ready (h : Stocked allowed update s) : ∀ b, s.Gives b → Ready 0 b :=
  fun b hb => (h.built b hb).ready

theorem left {after : Supply Exact} {r rng : Rng} {b : Option (Behavior Exact)}
    (h : Stocked allowed update s) (hn : s.next r = .ok (b, after, rng)) :
    Stocked allowed update after := by
  obtain ⟨_, left, total⟩ := Supply.next_eq_ok hn
  exact ⟨total h.total, fun b hb => h.built b (left b hb), fun b hb => h.serves b (left b hb)⟩

end Stocked

/-- A chain gets through its window. It may be cut off by its lifespan, but then it is
complete; and it may run out of steps, but then the next behavior is a fresh one. -/
theorem Chain.exists_course (lengths : Lengths allowed) (hs : timing.lastStop = some (real stop))
    (clips : Clips timing.lifespan start stop cut) (steps : Nat) :
    ∀ (stage : Stage Exact) {now offset : ℝ} {supply : Supply Exact} {child : Behavior Exact}
    {fresh : Bool}, start ≤ now → allowed (cut - now) → Stocked allowed update supply →
    Known child → Ready (childStart now offset fresh) child →
    Serves allowed update (childStart now offset fresh) child →
    (fresh = true → offset ≤ now) → (steps = 0 → fresh = true) →
    ∃ reply, Course update timing ⟨real start, real stop⟩ (real cut) steps (real now) supply
      (some child) (real offset) fresh stage reply ∧
      InTime timing.lifespan start stop reply ∧ Emits stage reply.stage := by
  induction steps with
  | zero =>
    intro stage now offset supply child fresh hn hc stocked known ready _ late spent
    obtain rfl := spent rfl
    refine ⟨_, .spent, clips.verdict fun on => ?_, .refl stage⟩
    have e := clips.whole on
    have still := lengths.le_of_sub hc
    exact .chain hs clips.nonneg on stocked.total stocked.built stocked.ready known
      (fun _ => by linarith [late rfl]) ready
  | succ steps ih =>
    intro stage now offset supply child fresh hn hc stocked known ready serves late _
    have still := lengths.le_of_sub hc
    have length : allowed (cut - offset - childStart now offset fresh) := by
      refine lengths.mono hc ?_
      cases fresh with
      | false => simp [childStart]
      | true =>
        have first := late rfl
        simp only [childStart, if_true]
        linarith
    obtain ⟨answer, ha, inTime, emits, known'⟩ := serves _ length stage
    rw [← childWindow_real] at ha
    obtain ⟨negative, _, ready'⟩ | ⟨time, hr, _, within, _⟩ := inTime
    · refine ⟨_, .waits ha negative, clips.verdict fun on => ?_, emits⟩
      have e := clips.whole on
      subst e
      exact .chain hs clips.nonneg on stocked.total stocked.built stocked.ready known'
        (fun hf => by cases hf) ready'
    · have hnn : ¬answer.leftover < 0 := by
        rw [hr]
        simpa using within
      have next : Scalar.max (real cut - answer.leftover) (real now) =
          real (max (offset + time) now) := by
        have e : cut - (cut - offset - time) = offset + time := by ring
        simp [hr, e]
      have now_le : now ≤ max (offset + time) now := le_max_right _ _
      have le_cut : max (offset + time) now ≤ cut := max_le (by linarith) still
      obtain ⟨⟨taken, after, rng⟩, htaken⟩ := stocked.total.next answer.stage.rng
      have stocked' := stocked.left htaken
      obtain ⟨given, _, _⟩ := Supply.next_eq_ok htaken
      cases taken with
      | none =>
        refine ⟨_, .ends ha hnn htaken,
          clips.exhausted ?_ (hn.trans now_le) le_cut rfl, emits⟩
        simp [next]
      | some b =>
        have hb := given b rfl
        have known : Known b := ⟨[], .start (stocked.built b hb)⟩
        have fresh' : ∀ x : ℝ, childStart x (max (offset + time) now) true = 0 := fun _ => rfl
        by_cases hd : real cut ≤ Scalar.max (real cut - answer.leftover) (real now)
        · refine ⟨_, .defers ha hnn htaken hd, clips.verdict fun on => ?_, emits⟩
          have e := clips.whole on
          rw [next]
          exact .chain hs clips.nonneg on stocked'.total stocked'.built stocked'.ready known
            (fun _ => by linarith) (fresh' _ ▸ stocked.ready b hb)
        · have earlier : max (offset + time) now < cut := by
            rw [next] at hd
            simpa using hd
          obtain ⟨reply, course, inTime, emits'⟩ := ih { answer.stage with rng }
            (hn.trans now_le) (lengths.of_pos (sub_pos.2 earlier)) stocked' known
            (fresh' _ ▸ stocked.ready b hb) (fresh' _ ▸ stocked.serves b hb)
            (fun _ => le_refl _) (fun _ => rfl)
          rw [← next] at course
          exact ⟨reply, .turns ha hnn htaken hd course, inTime, emits.trans emits'⟩

def Branch.Fit (now : ℝ) : Behavior Exact × Option Exact → Prop
  | (b, none) => Known b ∧ Ready now b
  | (_, some time) => ∃ x, time = real x ∧ x ≤ now

theorem Branch.all_fit {now : ℝ} {branches : List (Behavior Exact × Option Exact)}
    (known : ∀ p ∈ branches, p.2 = none → Known p.1)
    (ready : ∀ p ∈ branches, p.2 = none → Ready now p.1)
    (times : ∀ p ∈ branches, ∀ time, p.2 = some time → ∃ x, time = real x ∧ x ≤ now) :
    ∀ p ∈ branches, Fit now p := by
  rintro ⟨b, none | time⟩ hp
  · exact ⟨known _ hp rfl, ready _ hp rfl⟩
  · exact times _ hp time rfl

structure Branch.Kept (start cut : ℝ) (complete : Bool) (before : Stage Exact)
    (result : Branch.Result Exact) : Prop where
  latest : ∃ time, result.latest = real time ∧ start ≤ time ∧ time ≤ cut
  left : result.complete = false → complete = false ∨ ∃ p ∈ result.branches, p.2 = none
  fit : ∀ p ∈ result.branches, Fit cut p
  emits : Emits before result.stage

theorem Branch.Kept.cons {complete rest : Bool} {before mid : Stage Exact}
    {result : Branch.Result Exact} {p : Behavior Exact × Option Exact}
    (h : Kept start cut rest mid result) (emits : Emits before mid)
    (left : rest = false → complete = false ∨ p.2 = none) (fit : Fit cut p) :
    Kept start cut complete before { result with branches := p :: result.branches } where
  latest := h.latest
  left hc := by
    obtain hr | ⟨q, hq, hn⟩ := h.left hc
    · exact (left hr).imp_right fun hn => ⟨p, List.mem_cons_self, hn⟩
    · exact .inr ⟨q, List.mem_cons_of_mem _ hq, hn⟩
  fit := List.forall_mem_cons.2 ⟨fit, h.fit⟩
  emits := emits.trans h.emits

theorem Branch.exists_course (hw : start ≤ cut) (length : allowed (cut - start)) :
    ∀ (branches : List (Behavior Exact × Option Exact)) (complete : Bool) (stage : Stage Exact)
    {latest : ℝ}, start ≤ latest → latest ≤ cut → (∀ p ∈ branches, Fit start p) →
    (∀ p ∈ branches, p.2 = none → Serves allowed update start p.1) →
    ∃ result, Course update (real start) (real cut) branches (real latest) complete stage
      result ∧ Kept start cut complete stage result
  | [], complete, stage, latest, hn, hc, _, _ =>
      ⟨_, .nil, ⟨latest, rfl, hn, hc⟩, .inl, by simp, .refl stage⟩
  | (b, some time) :: rest, complete, stage, latest, hn, hc, fit, serves => by
      obtain ⟨⟨x, rfl, hx⟩, fits⟩ := List.forall_mem_cons.1 fit
      obtain ⟨result, course, kept⟩ := exists_course hw length rest complete stage
        (hn.trans (le_max_left latest x)) (max_le hc (hx.trans hw)) fits
        (List.forall_mem_cons.1 serves).2
      rw [← Exact.max_real] at course
      exact ⟨_, .done course, kept.cons (.refl stage) .inl ⟨x, rfl, hx.trans hw⟩⟩
  | (b, none) :: rest, complete, stage, latest, hn, hc, fit, serves => by
      obtain ⟨_, fits⟩ := List.forall_mem_cons.1 fit
      obtain ⟨head, serves⟩ := List.forall_mem_cons.1 serves
      obtain ⟨answer, ha, inTime, emits, known⟩ := head rfl cut length stage
      obtain ⟨negative, _, ready⟩ | ⟨time, hr, first, within, _⟩ := inTime
      · obtain ⟨result, course, kept⟩ := exists_course hw length rest false answer.stage hn hc
          fits serves
        exact ⟨_, .waits ha negative course,
          kept.cons emits (fun _ => .inr rfl) ⟨known, ready⟩⟩
      · have hnn : ¬answer.leftover < 0 := by
          rw [hr]
          simpa using within
        have ends : real cut - answer.leftover = real time := by simp [hr]
        obtain ⟨result, course, kept⟩ := exists_course hw length rest complete answer.stage
          (hn.trans (le_max_left latest time)) (max_le hc within) fits serves
        rw [← Exact.max_real, ← ends] at course
        exact ⟨_, .ends ha hnn course, kept.cons emits .inl ⟨time, ends, within⟩⟩

end Parts

section Whole

variable {allowed : ℝ → Prop} {watch : Watch Exact} {now : ℝ} {b : Behavior Exact}

/-- The watch lets pass what the whole is driven by. -/
theorem Serves.of_unwatched {unwatched : Update Exact} (lenient : Lenient allowed watch)
    (e : b.updateUnder watch = watch b unwatched) (h : Ready now b) (hk : Known b)
    (answers : ∀ stop, allowed (stop - now) → ∀ stage, ∃ reply,
      unwatched ⟨real now, real stop⟩ stage = .ok reply ∧
      InTime b.timing.lifespan now stop reply ∧ Emits stage reply.stage) :
    Serves allowed (Behavior.updateUnder watch) now b := by
  intro stop length stage
  obtain ⟨reply, hr, inTime, emits⟩ := answers stop length stage
  have watched : b.updateUnder watch ⟨real now, real stop⟩ stage = .ok reply := by
    rw [e, lenient.passes h hk length, hr]
  obtain ⟨past, hp⟩ := hk
  exact ⟨reply, watched, inTime, emits, _, hp.window
    (Behavior.updateUnder_within lenient.within b _ _ _ watched)⟩

theorem Ready.serves (lengths : Lengths allowed) (lenient : Lenient allowed watch)
    (h : Ready now b) (hk : Known b) : Serves allowed (Behavior.updateUnder watch) now b := by
  induction h with
  | @leaf now timing effect alive =>
    have e : (Behavior.leaf timing effect).updateUnder watch =
        watch (.leaf timing effect) (effect.update timing) := by rw [Behavior.updateUnder]
    refine .of_unwatched lenient e (.leaf alive) hk fun stop length stage => ?_
    have hw := lengths.le_of_sub length
    obtain ⟨_, _, clips⟩ := alive.exists_clips hw
    refine ⟨_, Effect.update_eq_ok.2 ⟨_, _, alive.awaits.enter hw, rfl⟩, ?_, fun _ hp => .inl hp⟩
    exact clips.verdict fun on => .leaf (.inr ⟨rfl, alive.nonneg, on⟩)
  | @emit now timing batch body alive total built =>
    have e : (Behavior.emit timing batch body).updateUnder watch =
        watch (.emit timing batch body) (batch.update timing body) := by
      rw [Behavior.updateUnder]
    refine .of_unwatched lenient e (.emit alive total built) hk fun stop length stage => ?_
    have hw := lengths.le_of_sub length
    obtain ⟨_, _, clips⟩ := alive.exists_clips hw
    obtain ⟨after, hs, emits⟩ := Batch.spawn_emits total built
      ((batch.moments { timing with lastStop := some (real stop) }
        ⟨real now, real stop⟩).flatMap batch.positions) stage
    refine ⟨_, Batch.update_eq_ok.2 ⟨_, _, after, alive.awaits.enter hw, hs, rfl⟩, ?_, emits⟩
    exact clips.verdict fun on => .emit (.inr ⟨rfl, alive.nonneg, on⟩) total built
  | @first timing supply current offset fresh hn hl total built ready ih =>
    refine .of_unwatched lenient (Behavior.updateUnder_chain ..) (.first hn hl total built ready) hk
      fun stop length stage => ?_
    have alive : timing.Alive 0 := .inl ⟨hn, rfl, hl⟩
    have hw := lengths.le_of_sub length
    obtain ⟨cut, hc, clips⟩ := alive.exists_clips hw
    have stocked : Stocked allowed (Behavior.updateUnder watch) supply :=
      ⟨total, built, fun b hb => ih b hb ⟨[], .start (built b hb)⟩⟩
    obtain ⟨⟨taken, after, rng⟩, htaken⟩ := total.next stage.rng
    obtain ⟨given, _, _⟩ := Supply.next_eq_ok htaken
    have answers : ∃ reply, Chain.Course (Behavior.updateUnder watch)
        { timing with lastStop := some (real stop) } ⟨real 0, real stop⟩ (real cut)
        Chain.stepLimit (real 0) after taken (real 0) true { stage with rng } reply ∧
        InTime timing.lifespan 0 stop reply ∧ Emits stage reply.stage := by
      cases taken with
      | none =>
        exact ⟨_, .idle, clips.exhausted Exact.real_sub_real (le_refl 0) clips.later rfl,
          fun _ hp => .inl hp⟩
      | some child =>
        have hb := given child rfl
        have start : childStart 0 0 true = 0 := rfl
        exact Chain.exists_course lengths (rfl : Timing.lastStop
          { timing with lastStop := some (real stop) } = some (real stop)) clips Chain.stepLimit
          { stage with rng } (le_refl 0) (lengths.clipped length clips) (stocked.left htaken)
          ⟨[], .start (built child hb)⟩ (start ▸ ready child hb)
          (start ▸ stocked.serves child hb) (fun _ => le_refl 0) (fun _ => rfl)
    obtain ⟨reply, course, answers⟩ := answers
    rw [← hc] at course
    exact ⟨reply, (Chain.update_first_iff hn hw).2 ⟨taken, after, rng, htaken, course⟩, answers⟩
  | @chain now offset timing supply child fresh hs hl hb total built ready known late ready' ih
      ih' =>
    refine .of_unwatched lenient (Behavior.updateUnder_chain ..)
      (.chain hs hl hb total built ready known late ready') hk fun stop length stage => ?_
    have alive : timing.Alive now := .inr ⟨hs, hl, hb⟩
    have hw := lengths.le_of_sub length
    obtain ⟨cut, hc, clips⟩ := alive.exists_clips hw
    have stocked : Stocked allowed (Behavior.updateUnder watch) supply :=
      ⟨total, built, fun b hb => ih b hb ⟨[], .start (built b hb)⟩⟩
    obtain ⟨reply, course, answers⟩ := Chain.exists_course lengths (rfl : Timing.lastStop
      { timing with lastStop := some (real stop) } = some (real stop)) clips Chain.stepLimit stage
      (le_refl now) (lengths.clipped length clips) stocked known ready' (ih' known) late
      (fun none => by cases none)
    rw [← hc] at course
    exact ⟨reply, (Chain.update_running_iff hs hw).2 course, answers⟩
  | @parallel now timing branches alive left known ready times ih =>
    refine .of_unwatched lenient (Behavior.updateUnder_parallel ..)
      (.parallel alive left known ready times) hk fun stop length stage => ?_
    have hw := lengths.le_of_sub length
    obtain ⟨cut, hc, clips⟩ := alive.exists_clips hw
    obtain ⟨result, course, kept⟩ := Branch.exists_course clips.later
      (lengths.clipped length clips) branches true stage (le_refl now) clips.later
      (Branch.all_fit known ready times) fun p hp hn => ih p hp hn (known p hp hn)
    rw [← hc] at course
    refine ⟨_, (Branch.update_iff alive.awaits hw).2 ⟨result, course, rfl⟩, ?_, kept.emits⟩
    cases complete : result.complete with
    | true =>
      obtain ⟨time, ht, later, within⟩ := kept.latest
      exact clips.exhausted (by simp [ht]) later within (course.exhausted complete).2
    | false =>
      refine clips.verdict fun on => ?_
      have e := clips.whole on
      subst e
      have rest := (kept.left complete).resolve_left (by simp)
      refine .parallel (.inr ⟨rfl, alive.nonneg, on⟩) (fun _ => rest) ?_ ?_ ?_
      · rintro ⟨b, _⟩ hp rfl
        exact (kept.fit _ hp).1
      · rintro ⟨b, _⟩ hp rfl
        exact (kept.fit _ hp).2
      · rintro ⟨b, _⟩ hp time rfl
        exact kept.fit _ hp

/-- Without a watch, windows of no length are answered too. -/
theorem Ready.serves_unwatched (h : Ready now b) (hk : Known b) :
    Serves (0 ≤ ·) Behavior.update now b := by
  have lengths : Lengths (0 ≤ ·) := ⟨le_of_lt, id⟩
  have lenient : Lenient (0 ≤ ·) (fun _ u => u) := ⟨fun _ _ _ _ _ => id, fun _ _ _ _ => rfl⟩
  have plain : Behavior.updateUnder (fun _ u => u) = (Behavior.update : _ → Update Exact) :=
    funext (Behavior.updateUnder_eq_update fun _ _ => rfl)
  exact plain ▸ h.serves lengths lenient hk

end Whole

end ParticlePatterns
