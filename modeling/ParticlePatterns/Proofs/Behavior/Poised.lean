import ParticlePatterns.Proofs.Behavior.Lawful
import ParticlePatterns.Proofs.Behavior.Mending
import ParticlePatterns.Proofs.Number.Rounded

/-!
# Windows of rounded numbers

A behavior that is poised at some time of its own is not refused any window from there on, be it
empty, or so long that its end is infinite. At a finite end it is complete or poised again. What
rounding does to the times inside of a chain makes no difference: it keeps their order, and where
one window of a child ends the next one starts, because both are the same difference. In a window
without an end nothing goes on, but what is left of it need not be a number.
-/

set_option autoImplicit false

namespace ParticlePatterns

open Scalar (IsFinite Boundless)

variable {α : Type} [Scalar α]

def Timing.AwaitsAt (now : α) (t : Timing α) : Prop :=
  0 ≤ t.lifespan ∧ (t.lastStop = none ∧ now = 0 ∨ t.lastStop = some now)

/-- May be driven from the given time of its own on, with no faults but certain ones. -/
inductive Poised (flaw : Fault α → Prop) : α → Behavior α → Prop
  | leaf {now : α} {timing : Timing α} {effect : Effect α} : timing.AwaitsAt now →
      Poised flaw now (.leaf timing effect)
  | emit {now : α} {timing : Timing α} {batch : Batch} {body : Gen α (Behavior α)} :
      timing.AwaitsAt now → (∀ b, body.Gives b → Poised flaw 0 b) → Gen.Contained flaw body →
      Poised flaw now (.emit timing batch body)
  | first {timing : Timing α} {supply : Supply α} {current : Option (Behavior α)} {offset : α}
      {fresh : Bool} : timing.lastStop = none → 0 ≤ timing.lifespan →
      supply.Lawful (Gen.Contained flaw) → (∀ b, supply.Gives b → Poised flaw 0 b) →
      Poised flaw 0 (.chain timing supply current offset fresh)
  | chain {now : α} {timing : Timing α} {supply : Supply α} {child : Behavior α} {offset : α}
      {fresh : Bool} : timing.lastStop = some now → 0 ≤ timing.lifespan →
      supply.Lawful (Gen.Contained flaw) → (∀ b, supply.Gives b → Poised flaw 0 b) →
      0 ≤ offset → offset ≤ now → Poised flaw (if fresh then 0 else now - offset) child →
      Poised flaw now (.chain timing supply (some child) offset fresh)
  | parallel {now : α} {timing : Timing α} {branches : List (Behavior α × Option α)} :
      timing.AwaitsAt now → (∀ p ∈ branches, p.2 = none → Poised flaw now p.1) →
      (∀ p ∈ branches, ∀ time, p.2 = some time → time ≤ now) →
      Poised flaw now (.parallel timing branches)

def Particle.Fresh (flaw : Fault α → Prop) (p : Particle α) : Prop :=
  p.lifeTime = 0 ∧ ∃ b, p.behavior = some b ∧ Poised flaw 0 b

def Stage.Gains (flaw : Fault α → Prop) (before after : Stage α) : Prop :=
  ∀ p ∈ after.emitted, p ∈ before.emitted ∨ p.Fresh flaw

structure Reply.Timely (flaw : Fault α → Prop) (stop : α) (before : Stage α) (reply : Reply α) :
    Prop where
  finite : IsFinite stop →
    reply.leftover < 0 ∧ Poised flaw stop reply.behavior ∨ 0 ≤ reply.leftover
  infinite : ¬IsFinite stop → Boundless reply.leftover
  gains : before.Gains flaw reply.stage

def Behavior.Obliges (flaw : Fault α → Prop) (start : α) (b : Behavior α) : Prop :=
  ∀ stop stage, start ≤ stop →
    EndsIn (Reply.Timely flaw stop stage) flaw (b.update ⟨start, stop⟩ stage)

namespace Stage.Gains

variable {flaw : Fault α → Prop} {s t u : Stage α}

theorem of_eq (h : t.emitted = s.emitted) : s.Gains flaw t :=
  fun _ hp => .inl (h ▸ hp)

theorem trans (h : s.Gains flaw t) (h' : t.Gains flaw u) : s.Gains flaw u := by
  intro p hp
  obtain hp | born := h' p hp
  · exact h p hp
  · exact .inr born

end Stage.Gains

/-- What the timing refuses is refused before anything else happens. -/
theorem Behavior.update_error_of_enter {b : Behavior α} {w : Window α} {fault : Fault α}
    (h : b.timing.enter w = .error fault) (stage : Stage α) :
    b.update w stage = .error fault := by
  cases b with
  | leaf timing effect =>
    show timing.enter w >>= _ = _
    exact h ▸ rfl
  | emit timing batch body =>
    show timing.enter w >>= _ = _
    exact h ▸ rfl
  | chain timing supply current offset fresh =>
    show timing.enter w >>= _ = _
    exact h ▸ rfl
  | parallel timing branches =>
    show timing.enter w >>= _ = _
    exact h ▸ rfl

section Drawing

variable {flaw : Fault α → Prop}

omit [Scalar α] in
theorem Supply.Lawful.next_contained {s : Supply α} (h : s.Lawful (Gen.Contained flaw)) (r : Rng) :
    EndsIn (fun taken => taken.2.1.Lawful (Gen.Contained flaw) ∧
      (∀ b, taken.1 = some b → s.Gives b) ∧ ∀ b, taken.2.1.Gives b → s.Gives b) flaw
      (s.next r) := by
  cases hn : s.next r with
  | ok taken =>
    obtain ⟨given, left, -⟩ := next_eq_ok hn
    exact ⟨h.left hn, given, left⟩
  | error fault =>
    obtain ⟨g, contained, failed⟩ := h.fails hn
    exact contained _ failed

theorem Batch.spawn_gains {body : Gen α (Behavior α)} (made : ∀ b, body.Gives b → Poised flaw 0 b)
    (failed : Gen.Contained flaw body) (total : Nat) (positions : List Nat) : ∀ stage : Stage α,
    EndsIn (stage.Gains flaw) flaw (spawn total body positions stage) := by
  induction positions with
  | nil => exact fun _ => .of_eq rfl
  | cons index rest ih =>
    intro stage
    have drawn : EndsIn (fun result : Behavior α × Rng => Poised flaw 0 result.1) flaw
        (body ⟨index, total⟩ stage.rng) := by
      cases hm : body ⟨index, total⟩ stage.rng with
      | ok result => exact made _ ⟨_, _, result.2, hm⟩
      | error fault => exact failed fault ⟨_, _, hm⟩
    refine drawn.bind fun result poised =>
      (ih _).mono (fun after later => .trans ?_ later) fun _ => id
    intro p hp
    obtain hp | rfl := Array.mem_push.1 hp
    · exact .inl hp
    · exact .inr ⟨rfl, result.1, rfl, poised⟩

end Drawing

variable [Scalar.Rounded α] {flaw : Fault α → Prop}

open Scalar Compared Rounded

namespace Timing

variable {t : Timing α} {now start stop : α}

theorem meets_self (h : IsFinite now) : Meets now now := by
  have positive : 0 < Scalar.max (Scalar.abs now) 1 := by
    have one : (1 : α) ≤ 1 := (defined (le_of_lt zero_lt_one)).2
    unfold Scalar.max
    split
    · exact zero_lt_one
    next above =>
      split
      next self => exact lt_of_lt_of_le zero_lt_one ((le_total one self).resolve_right above)
      · exact zero_lt_one
  rw [Meets, sub_self h, Scalar.abs, if_neg lt_irrefl]
  exact mul_nonneg tolerance_pos positive

theorem not_meets_infinity : ¬Meets (infinity : α) infinity := by
  have unknown := infinity_sub_infinity (α := α)
  intro h
  rw [Meets, Scalar.abs, if_neg fun negative => unknown (defined (le_of_lt negative)).1] at h
  exact unknown (defined h).1

theorem AwaitsAt.enter (h : t.AwaitsAt now) (finite : IsFinite now) (later : now ≤ stop) :
    t.enter ⟨now, stop⟩ = .ok (!t.isRunning, { t with lastStop := some stop }) := by
  obtain ⟨-, ⟨none, rfl⟩ | last⟩ := h
  · simp [Timing.enter, later, none, Signed.zero_le_zero, isRunning]
  · simp [Timing.enter, later, last, meets_self finite, isRunning]

omit [Rounded α] in
theorem AwaitsAt.entered (h : t.AwaitsAt now) :
    { t with lastStop := some stop : Timing α }.AwaitsAt stop :=
  ⟨h.1, .inr rfl⟩

theorem verdict_infinity (h : 0 ≤ t.lifespan) (start : α) :
    Boundless (t.verdict ⟨start, infinity⟩) := by
  rw [verdict, if_pos (le_infinity (defined h).2)]
  exact boundless_infinity_sub _

/-- The answer is negative only as long as the lifespan is not over. -/
theorem neg_or_nonneg_verdict (h : IsFinite start) (h0 : 0 ≤ start) (later : start ≤ stop)
    (hs : IsFinite stop) :
    ¬t.lifespan ≤ stop ∧ t.verdict ⟨start, stop⟩ < 0 ∨ 0 ≤ t.verdict ⟨start, stop⟩ := by
  unfold verdict
  by_cases ended : t.lifespan ≤ stop
  · rw [if_pos ended]
    obtain ⟨lower, upper⟩ := max_between h.le_self later fun _ => ended
    exact .inr (sub_nonneg upper (.of_le (le_trans h0 lower) upper hs))
  · rw [if_neg ended]
    exact .inl ⟨ended, neg_one_lt_zero⟩

end Timing

/-- An answer that goes by the lifespan. -/
theorem Reply.timely_verdict {t : Timing α} {start stop : α} {b : Behavior α}
    {before after : Stage α} (h : IsFinite start) (h0 : 0 ≤ start) (hl : 0 ≤ t.lifespan)
    (later : start ≤ stop) (gains : before.Gains flaw after)
    (poised : IsFinite stop → ¬t.lifespan ≤ stop → Poised flaw stop b) :
    Reply.Timely flaw stop before ⟨t.verdict ⟨start, stop⟩, b, after⟩ := by
  refine ⟨fun finite => ?_, fun endless => ?_, gains⟩
  · obtain ⟨on, negative⟩ | complete := t.neg_or_nonneg_verdict h h0 later finite
    · exact .inl ⟨negative, poised finite on⟩
    · exact .inr complete
  · obtain rfl := (isFinite_or_eq_infinity (le_trans h0 later)).resolve_left endless
    exact t.verdict_infinity hl start

/-- An answer that tells how long ago it was complete. -/
theorem Reply.timely_since {time stop : α} {b : Behavior α} {before after : Stage α}
    (h0 : 0 ≤ stop) (gains : before.Gains flaw after)
    (within : IsFinite stop → 0 ≤ time ∧ time ≤ stop) :
    Reply.Timely flaw stop before ⟨stop - time, b, after⟩ := by
  refine ⟨fun finite => ?_, fun endless => ?_, gains⟩
  · obtain ⟨nonneg, past⟩ := within finite
    exact .inr (sub_nonneg past (.of_le nonneg past finite))
  · obtain rfl := (isFinite_or_eq_infinity h0).resolve_left endless
    exact boundless_infinity_sub time

structure Window.Passes (w : Window α) (lifespan stop : α) : Prop where
  finite : IsFinite w.start
  nonneg : 0 ≤ w.start
  lasts : 0 ≤ lifespan
  later : w.start ≤ stop
  within : stop ≤ w.stop
  whole : ¬lifespan ≤ w.stop → stop = w.stop

theorem Window.passes_stopWithin {w : Window α} {lifespan : α} (h : IsFinite w.start)
    (h0 : 0 ≤ w.start) (hl : 0 ≤ lifespan) (later : w.start ≤ w.stop) :
    w.Passes lifespan (w.stopWithin lifespan) := by
  have self := (defined later).2
  unfold stopWithin
  by_cases on : w.start < lifespan
  · rw [if_pos on]
    unfold Scalar.min
    by_cases ended : lifespan ≤ w.stop
    · rw [if_pos ended]
      exact ⟨h, h0, hl, le_of_lt on, ended, absurd ended⟩
    · rw [if_neg ended, if_pos self]
      exact ⟨h, h0, hl, later, self, fun _ => rfl⟩
  · rw [if_neg on]
    exact ⟨h, h0, hl, later, self, fun _ => rfl⟩

section Chains

variable {timing : Timing α} {w : Window α} {stop : α}

/-- The time at which a window of a child starts is known, and its end comes later. -/
theorem Chain.childWindow_later {now offset : α} (fresh : Bool) (h : IsFinite now)
    (h0 : 0 ≤ offset) (past : offset ≤ now) (later : now ≤ stop) :
    let inner := childWindow now stop offset fresh
    IsFinite inner.start ∧ 0 ≤ inner.start ∧ inner.start ≤ inner.stop := by
  have finite : IsFinite offset := .of_le h0 past h
  cases fresh with
  | true => exact ⟨.zero, Signed.zero_le_zero, sub_nonneg (le_trans past later) finite⟩
  | false =>
    have nonneg : 0 ≤ now - offset := sub_nonneg past finite
    exact ⟨.of_le nonneg (sub_le h h0) h, nonneg, sub_le_sub later finite⟩

/-- The next child starts between the start of the last one and the end of the window; where this
is infinite it may come to lie there. -/
theorem Chain.now_between {now offset leftover : α} (h : IsFinite now) (h0 : 0 ≤ now)
    (later : now ≤ stop) (ho : 0 ≤ offset) (past : offset ≤ now)
    (answer : IsFinite (stop - offset) → 0 ≤ leftover) :
    now ≤ Scalar.max (stop - leftover) now ∧ Scalar.max (stop - leftover) now ≤ stop := by
  obtain finite | rfl := isFinite_or_eq_infinity (le_trans h0 later)
  · have nonneg := sub_nonneg (le_trans past later) (.of_le ho past h)
    have inner : IsFinite (stop - offset) := .of_le nonneg (sub_le finite ho) finite
    exact max_between h.le_self later fun _ => sub_le finite (answer inner)
  · have top : (infinity : α) ≤ infinity := (defined later).2
    obtain same | infinite := (boundless_infinity_sub leftover).max_cases (y := now)
    · exact same.symm ▸ ⟨h.le_self, later⟩
    · exact infinite.symm ▸ ⟨later, top⟩

/-- A chain that waits for its lifespan, or for its current child, at the end of a window. -/
theorem Chain.timely_waiting (hw : w.Passes timing.lifespan stop)
    (last : timing.lastStop = some w.stop) {supply : Supply α} {child : Behavior α} {offset : α}
    {fresh : Bool} {before after : Stage α} (drawn : supply.Lawful (Gen.Contained flaw))
    (made : ∀ b, supply.Gives b → Poised flaw 0 b) (h0 : 0 ≤ offset) (past : offset ≤ stop)
    (poised : IsFinite stop → Poised flaw (if fresh then 0 else stop - offset) child)
    (gains : before.Gains flaw after) : Reply.Timely flaw w.stop before
      ⟨timing.verdict w, .chain timing supply (some child) offset fresh, after⟩ := by
  refine Reply.timely_verdict hw.finite hw.nonneg hw.lasts (le_trans hw.later hw.within) gains ?_
  intro finite on
  obtain rfl := hw.whole on
  exact .chain last hw.lasts drawn made h0 past (poised finite)

/-- One turn of a chain, if it may have the turns that are left after it. -/
theorem Chain.turn_timely (hw : w.Passes timing.lifespan stop)
    (last : timing.lastStop = some w.stop) {steps : Nat}
    (rest : ∀ {now : α} {supply : Supply α} {child : Behavior α} (stage : Stage α),
      IsFinite now → w.start ≤ now → now ≤ stop → supply.Lawful (Gen.Contained flaw) →
      (∀ b, supply.Gives b → Poised flaw 0 b) → (∀ b, supply.Gives b → b.Obliges flaw 0) →
      Poised flaw 0 child → child.Obliges flaw 0 →
      EndsIn (Reply.Timely flaw w.stop stage) flaw
        (run timing w stop steps now (.wakeBy Behavior.update supply (some child) now true) stage))
    {now offset : α} {supply : Supply α} {child : Behavior α} {fresh : Bool} (stage : Stage α)
    (h : IsFinite now) (hs : w.start ≤ now) (later : now ≤ stop)
    (drawn : supply.Lawful (Gen.Contained flaw)) (made : ∀ b, supply.Gives b → Poised flaw 0 b)
    (obliges : ∀ b, supply.Gives b → b.Obliges flaw 0) (ho : 0 ≤ offset) (past : offset ≤ now)
    (first : child.Obliges flaw (if fresh then 0 else now - offset)) :
    EndsIn (Reply.Timely flaw w.stop stage) flaw
      (run timing w stop (steps + 1) now (.wakeBy Behavior.update supply (some child) offset fresh)
        stage) := by
  have h0 : 0 ≤ now := le_trans hw.nonneg hs
  obtain ⟨-, -, window⟩ := childWindow_later fresh h ho past later
  rw [run_some]
  refine (first _ stage window).bind fun answer timely => ?_
  by_cases waits : answer.leftover < 0
  · rw [if_pos waits]
    refine timely_waiting hw last drawn made ho (le_trans past later) (fun finite => ?_)
      timely.gains
    have nonneg := sub_nonneg (le_trans past later) (.of_le ho past h)
    have inner : IsFinite (stop - offset) := .of_le nonneg (sub_le finite ho) finite
    obtain ⟨-, poised⟩ | complete := timely.finite inner
    · exact poised
    · exact absurd complete (not_le_of_lt waits)
  · rw [if_neg waits]
    have complete : IsFinite (stop - offset) → 0 ≤ answer.leftover := fun inner =>
      (timely.finite inner).resolve_left fun negative => waits negative.1
    obtain ⟨lower, upper⟩ := now_between h h0 later ho past complete
    refine (drawn.next_contained answer.stage.rng).bind ?_
    rintro ⟨next, after, rng⟩ ⟨drawn', given, left⟩
    cases next with
    | none =>
      refine Reply.timely_since (le_trans h0 (le_trans later hw.within)) timely.gains fun _ => ?_
      exact ⟨le_trans h0 lower, le_trans upper hw.within⟩
    | some b =>
      have poised := made b (given b rfl)
      have made' := fun c hc => made c (left c hc)
      rw [proceed]
      by_cases ended : stop ≤ Scalar.max (stop - answer.leftover) now
      · rw [if_pos ended]
        exact timely_waiting hw last drawn' made' (le_trans h0 lower) upper (fun _ => poised)
          timely.gains
      · rw [if_neg ended]
        have finite : IsFinite (Scalar.max (stop - answer.leftover) now) := by
          have bounded := isFinite_or_eq_infinity (le_trans h0 lower)
          refine bounded.resolve_right fun infinite => ended ?_
          rw [infinite]
          exact le_infinity (defined later).2
        refine (rest { answer.stage with rng } finite (le_trans hs lower) upper drawn' made'
          (fun c hc => obliges c (left c hc)) poised (obliges b (given b rfl))).mono
          (fun reply turned => ⟨turned.finite, turned.infinite, ?_⟩) fun _ => id
        exact timely.gains.trans turned.gains

theorem Chain.run_timely (hw : w.Passes timing.lifespan stop)
    (last : timing.lastStop = some w.stop) (steps : Nat) : ∀ {now : α} {supply : Supply α}
      {child : Behavior α} (stage : Stage α), IsFinite now → w.start ≤ now → now ≤ stop →
      supply.Lawful (Gen.Contained flaw) → (∀ b, supply.Gives b → Poised flaw 0 b) →
      (∀ b, supply.Gives b → b.Obliges flaw 0) → Poised flaw 0 child → child.Obliges flaw 0 →
      EndsIn (Reply.Timely flaw w.stop stage) flaw
        (run timing w stop steps now (.wakeBy Behavior.update supply (some child) now true)
          stage) := by
  induction steps with
  | zero =>
    intro now supply child stage h hs later drawn made _ poised _
    rw [run_zero]
    exact timely_waiting hw last drawn made (le_trans hw.nonneg hs) later (fun _ => poised)
      (.of_eq rfl)
  | succ steps ih =>
    intro now supply child stage h hs later drawn made obliges _ first
    exact turn_timely hw last ih stage h hs later drawn made obliges (le_trans hw.nonneg hs)
      h.le_self first

end Chains

structure Branch.Timely (flaw : Fault α → Prop) (start stop : α) (before : Stage α)
    (result : Result α) : Prop where
  poised : IsFinite stop → ∀ p ∈ result.branches, p.2 = none → Poised flaw stop p.1
  times : IsFinite stop → ∀ p ∈ result.branches, ∀ time, p.2 = some time → time ≤ stop
  latest : IsFinite stop → start ≤ result.latest ∧ result.latest ≤ stop
  gains : before.Gains flaw result.stage

theorem Branch.run_timely {start stop : α} (later : start ≤ stop) :
    ∀ {branches : List (Behavior α × Option α)} {latest : α} {complete : Bool} (stage : Stage α),
    (∀ p ∈ branches, p.2 = none → p.1.Obliges flaw start) →
    (∀ p ∈ branches, ∀ time, p.2 = some time → time ≤ start) →
    (IsFinite stop → start ≤ latest ∧ latest ≤ stop) →
    EndsIn (Branch.Timely flaw start stop stage) flaw
      (run start stop (wakeBy Behavior.update branches) latest complete stage)
  | [], _, _, _, _, _, between => ⟨by simp, by simp, between, .of_eq rfl⟩
  | (b, some time) :: rest, latest, complete, stage, obliges, times, between => by
      obtain ⟨-, obliges⟩ := List.forall_mem_cons.1 obliges
      obtain ⟨past, times⟩ := List.forall_mem_cons.1 times
      have early : time ≤ stop := le_trans (past time rfl) later
      refine (run_timely later stage obliges times fun finite => ?_).bind fun result timely => ?_
      · obtain ⟨lower, upper⟩ := between finite
        exact max_within lower upper fun _ => early
      · refine ⟨fun finite => ?_, fun finite => ?_, timely.latest, timely.gains⟩
        · exact List.forall_mem_cons.2 ⟨by simp, timely.poised finite⟩
        · exact List.forall_mem_cons.2 ⟨by simpa using early, timely.times finite⟩
  | (b, none) :: rest, latest, complete, stage, obliges, times, between => by
      obtain ⟨first, obliges⟩ := List.forall_mem_cons.1 obliges
      obtain ⟨-, times⟩ := List.forall_mem_cons.1 times
      refine (first rfl stop stage later).bind fun answer answered => ?_
      by_cases waits : answer.leftover < 0
      · rw [if_pos waits]
        refine (run_timely later answer.stage obliges times between).bind fun result timely => ?_
        refine ⟨fun finite => ?_, fun finite => ?_, timely.latest,
          answered.gains.trans timely.gains⟩
        · obtain ⟨-, poised⟩ | complete := answered.finite finite
          · exact List.forall_mem_cons.2 ⟨fun _ => poised, timely.poised finite⟩
          · exact absurd complete (not_le_of_lt waits)
        · exact List.forall_mem_cons.2 ⟨by simp, timely.times finite⟩
      · rw [if_neg waits]
        have early : IsFinite stop → stop - answer.leftover ≤ stop := fun finite =>
          sub_le finite ((answered.finite finite).resolve_left fun negative => waits negative.1)
        refine (run_timely later answer.stage obliges times fun finite => ?_).bind
          fun result timely => ?_
        · obtain ⟨lower, upper⟩ := between finite
          exact max_within lower upper fun _ => early finite
        · refine ⟨fun finite => ?_, fun finite => ?_, timely.latest,
            answered.gains.trans timely.gains⟩
          · exact List.forall_mem_cons.2 ⟨by simp, timely.poised finite⟩
          · exact List.forall_mem_cons.2 ⟨by simpa using early finite, timely.times finite⟩

/-- Whatever is poised is answered, be the window empty or without an end. -/
theorem Poised.obliges {now : α} {b : Behavior α} (h : Poised flaw now b) :
    IsFinite now → 0 ≤ now → b.Obliges flaw now := by
  induction h with
  | @leaf now timing effect awaits =>
    intro finite h0 stop stage later
    show EndsIn _ _ (effect.update timing ⟨now, stop⟩ stage)
    rw [Effect.update, awaits.enter finite later]
    exact Reply.timely_verdict finite h0 awaits.1 later (.of_eq rfl) fun _ _ => .leaf awaits.entered
  | @emit now timing batch body awaits made failed =>
    intro finite h0 stop stage later
    show EndsIn _ _ (batch.update timing body ⟨now, stop⟩ stage)
    rw [Batch.update, awaits.enter finite later]
    refine (Batch.spawn_gains made failed _ _ stage).bind fun after gains => ?_
    exact Reply.timely_verdict finite h0 awaits.1 later gains fun _ _ =>
      .emit awaits.entered made failed
  | @first timing supply current offset fresh none hl drawn made ih =>
    intro finite h0 stop stage later
    let w : Window α := ⟨0, stop⟩
    let entered : Timing α := { timing with lastStop := some stop }
    have awaits : timing.AwaitsAt 0 := ⟨hl, .inl ⟨none, rfl⟩⟩
    have obliges := fun b hb => ih b hb finite h0
    have inside : w.Passes entered.lifespan (w.stopWithin entered.lifespan) :=
      Window.passes_stopWithin finite h0 hl later
    rw [Behavior.update_chain, Chain.update_wakeBy, awaits.enter finite later, Timing.isRunning,
      none]
    refine (drawn.next_contained stage.rng).bind ?_
    rintro ⟨next, after, rng⟩ ⟨drawn', given, left⟩
    cases next with
    | none => exact Reply.timely_since later (.of_eq rfl) fun _ => ⟨h0, later⟩
    | some child =>
      refine (Chain.run_timely inside rfl Chain.stepLimit { stage with rng } finite h0
        inside.later drawn' (fun b hb => made b (left b hb)) (fun b hb => obliges b (left b hb))
        (made child (given child rfl)) (obliges child (given child rfl))).mono
        (fun reply timely => ⟨timely.finite, timely.infinite, timely.gains⟩) fun _ => id
  | @chain now timing supply child offset fresh last hl drawn made ho past _ ih ih' =>
    intro finite h0 stop stage later
    let w : Window α := ⟨now, stop⟩
    let entered : Timing α := { timing with lastStop := some stop }
    have awaits : timing.AwaitsAt now := ⟨hl, .inr last⟩
    have inside : w.Passes entered.lifespan (w.stopWithin entered.lifespan) :=
      Window.passes_stopWithin finite h0 hl later
    obtain ⟨finite', h0', -⟩ := Chain.childWindow_later fresh finite ho past later
    rw [Behavior.update_chain, Chain.update_wakeBy, awaits.enter finite later, Timing.isRunning,
      last]
    exact Chain.turn_timely inside rfl (Chain.run_timely inside rfl (Chain.stepLimit - 1)) stage
      finite (defined later).1 inside.later drawn made
      (fun b hb => ih b hb .zero Signed.zero_le_zero) ho past (ih' finite' h0')
  | @parallel now timing branches awaits poised times ih =>
    intro finite h0 stop stage later
    have inside := Window.passes_stopWithin (w := ⟨now, stop⟩) finite h0 awaits.1 later
    rw [Behavior.update_parallel, Branch.update, awaits.enter finite later]
    refine (Branch.run_timely inside.later stage (fun p hp hn => ih p hp hn finite h0) times
      fun _ => ⟨(defined later).1, inside.later⟩).bind fun result timely => ?_
    cases hc : result.complete with
    | true =>
      refine Reply.timely_since (le_trans h0 later) timely.gains fun finite => ?_
      obtain ⟨lower, upper⟩ := timely.latest
        (.of_le (le_trans h0 inside.later) inside.within finite)
      exact ⟨le_trans h0 lower, le_trans upper inside.within⟩
    | false =>
      refine Reply.timely_verdict finite h0 awaits.1 later timely.gains fun finite on => ?_
      have whole := inside.whole on
      rw [whole] at timely
      exact .parallel awaits.entered (timely.poised finite) (timely.times finite)

omit [Scalar.Rounded α] in
/-- What is fresh may be driven from its time 0 on. -/
theorem Behavior.Pristine.poised {b : Behavior α} (h : b.Pristine flaw) : Poised flaw 0 b := by
  have awaits : ∀ {t : Timing α}, t.Pristine → t.AwaitsAt 0 :=
    fun fresh => ⟨fresh.2, .inl ⟨fresh.1, rfl⟩⟩
  induction h with
  | leaf fresh _ => exact .leaf (awaits fresh)
  | emit fresh _ _ failed ih => exact .emit (awaits fresh) ih failed
  | body fresh _ failed ih =>
    refine .first fresh.1 fresh.2 ?_ fun b ⟨r, after, made⟩ => ih b ⟨_, r, after, made⟩
    rintro _ _ _ ⟨⟩
    exact failed
  | sequence fresh _ ih => exact .first fresh.1 fresh.2 (by rintro _ _ _ ⟨⟩) ih
  | together fresh waiting _ ih =>
    refine .parallel (awaits fresh) (fun p hp _ => ih p hp) fun p hp time done => ?_
    cases (waiting p hp).symm.trans done

end ParticlePatterns
