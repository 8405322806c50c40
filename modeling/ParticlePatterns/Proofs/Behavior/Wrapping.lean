import Mathlib
import ParticlePatterns.Proofs.Behavior.Flattening
import ParticlePatterns.Proofs.Behavior.Range

/-!
# Wrapping

A sequence of one behavior and a single branch do what the behavior does. Both hand on the
window as it is. When the behavior is complete they work out the time of that from what is left
over, and what is left over from that time; since it is a part of the window the second one is
the first one again. From then on they hand every window back. So they must, since a behavior
that is driven on behind its end need not.
-/

set_option autoImplicit false

namespace ParticlePatterns

open Exact (real)

def Behavior.answersToEnd {α : Type} [Scalar α] (b : Behavior α) :
    List (Window α × Stage α) → Except (Fault α) (List (α × Stage α))
  | [] => .ok []
  | (w, stage) :: rest => b.update w stage >>= fun reply =>
      if reply.leftover < 0 then
        (reply.behavior.answersToEnd rest).map ((reply.leftover, reply.stage) :: ·)
      else .ok [(reply.leftover, reply.stage)]

def handedBack {α : Type} [Scalar α] (run : Window α × Stage α) : α × Stage α :=
  (run.1.stop - run.1.start, run.2)

inductive Wraps (now : ℝ) (b : Behavior Exact) : Behavior Exact → Prop
  | sequence {t : Timing Exact} {current : Option (Behavior Exact)} {offset : Exact}
      {fresh : Bool} : now = 0 → t.lastStop = none → t.lifespan = Scalar.infinity →
      Wraps now b (.chain t (.list [b]) current offset fresh)
  | chain {t : Timing Exact} : t.Endless now →
      Wraps now b (.chain t (.list []) (some b) (real 0) false)
  | together {t : Timing Exact} : t.Awaits now → t.lifespan = Scalar.infinity →
      Wraps now b (.parallel t [(b, none)])

inductive Spent (now : ℝ) : Behavior Exact → Prop
  | chain {t : Timing Exact} {offset : Exact} {fresh : Bool} : t.Endless now →
      Spent now (.chain t (.list []) none offset fresh)
  | together {t : Timing Exact} {b : Behavior Exact} {time : ℝ} : t.Endless now → time ≤ now →
      Spent now (.parallel t [(b, some (real time))])

inductive Relays (flaw : Fault Exact → Prop) (stop : ℝ) :
    Except (Fault Exact) (Reply Exact) → Except (Fault Exact) (Reply Exact) → Prop
  | fault (fault : Fault Exact) : Relays flaw stop (.error fault) (.error fault)
  | goes {leftover : Exact} {b c : Behavior Exact} {stage : Stage Exact} : leftover < 0 →
      Underway flaw stop b → Wraps stop b c →
      Relays flaw stop (.ok ⟨leftover, b, stage⟩) (.ok ⟨leftover, c, stage⟩)
  | ends {leftover : Exact} {b c : Behavior Exact} {stage : Stage Exact} : ¬leftover < 0 →
      Spent stop c → Relays flaw stop (.ok ⟨leftover, b, stage⟩) (.ok ⟨leftover, c, stage⟩)

section Updates

variable {flaw : Fault Exact → Prop} {now stop : ℝ} {b c : Behavior Exact} {t : Timing Exact}

theorem Timing.endless_entered (hl : t.lifespan = Scalar.infinity) (stop : ℝ) :
    ({ t with lastStop := some (real stop) } : Timing Exact).Endless stop :=
  ⟨hl, rfl⟩

/-- A chain with nothing else to drive passes every answer on. -/
theorem Chain.relays_run (under : Underway flaw now b) (ht : t.Endless stop) (hw : now ≤ stop)
    {fresh : Bool} (start : fresh = true → now = 0) (stage : Stage Exact) :
    Relays flaw stop (b.update ⟨real now, real stop⟩ stage)
      (run t ⟨real now, real stop⟩ (real stop) stepLimit (real now)
        ⟨.of [], some b.wake, real 0, fresh⟩ stage) := by
  have window : childWindow (real now) (real stop) (real 0) fresh = ⟨real now, real stop⟩ := by
    rw [childWindow_real, childStart_eq fun hf => (start hf).symm, sub_zero, sub_zero]
  obtain ⟨steps, hsteps⟩ : ∃ steps, stepLimit = steps + 1 := ⟨_, rfl⟩
  rw [hsteps, run_succ, window]
  show Relays flaw stop _ (b.update ⟨real now, real stop⟩ stage >>= _)
  cases hu : b.update ⟨real now, real stop⟩ stage with
  | error fault => exact .fault fault
  | ok reply =>
    obtain ⟨range, on⟩ := under.of_update hw hu
    show Relays flaw stop (.ok reply) (answered t _ _ _ _ _ _ reply)
    by_cases negative : reply.leftover < 0
    · have same : t.verdict ⟨real now, real stop⟩ = reply.leftover := by
        rw [ht.verdict, range.eq_minus_one negative]
      rw [answered, if_pos negative, same]
      exact .goes negative (on negative) (.chain ht)
    · obtain ⟨r, hr, nonneg, within⟩ := range.eq_real negative
      have time : Scalar.max (real stop - reply.leftover) (real now) = real (stop - r) := by
        simp [hr, le_sub_comm.1 within]
      have same : real stop - real (stop - r) = reply.leftover := by simp [hr]
      rw [answered, if_neg negative, time, turn_nil, same]
      exact .ends negative (.chain ht)

theorem Branch.update_alone (ht : t.Awaits now) (hl : t.lifespan = Scalar.infinity)
    (hw : now ≤ stop) (stage : Stage Exact) :
    let entered := { t with lastStop := some (real stop) }
    (Behavior.parallel t [(b, none)]).update ⟨real now, real stop⟩ stage =
      b.update ⟨real now, real stop⟩ stage >>= fun answer =>
        if answer.leftover < 0 then
          .ok ⟨entered.verdict ⟨real now, real stop⟩,
            .parallel entered [(answer.behavior, none)], answer.stage⟩
        else
          let time := real stop - answer.leftover
          .ok ⟨real stop - Scalar.max (real now) time,
            .parallel entered [(answer.behavior, some time)], answer.stage⟩ := by
  intro entered
  have whole : Window.stopWithin ⟨real now, real stop⟩ entered.lifespan = real stop :=
    Timing.stopWithin_endless hl
  rw [Behavior.update_parallel, update, ht.enter hw]
  show run (real now) (Window.stopWithin _ entered.lifespan) (wakeBy _ [(b, none)]) _ _ _ >>= _ = _
  rw [whole]
  show (b.update ⟨real now, real stop⟩ stage >>= _) >>= _ = _
  rw [bind_assoc]
  refine congrArg (_ >>= ·) (funext fun answer => ?_)
  by_cases negative : answer.leftover < 0
  · rw [if_pos negative, if_pos negative]
    rfl
  · rw [if_neg negative, if_neg negative]
    rfl

/-- A single branch gets the window, and its time is that of the whole. -/
theorem Branch.relays_update (under : Underway flaw now b) (ht : t.Awaits now)
    (hl : t.lifespan = Scalar.infinity) (hw : now ≤ stop) (stage : Stage Exact) :
    Relays flaw stop (b.update ⟨real now, real stop⟩ stage)
      ((Behavior.parallel t [(b, none)]).update ⟨real now, real stop⟩ stage) := by
  have entered := Timing.endless_entered hl stop
  rw [update_alone ht hl hw]
  cases hu : b.update ⟨real now, real stop⟩ stage with
  | error fault => exact .fault fault
  | ok reply =>
    obtain ⟨range, on⟩ := under.of_update hw hu
    show Relays flaw stop (.ok reply) (if reply.leftover < 0 then _ else _)
    by_cases negative : reply.leftover < 0
    · rw [if_pos negative, entered.verdict, ← range.eq_minus_one negative]
      exact .goes negative (on negative) (.together (.inr rfl) hl)
    · obtain ⟨r, hr, nonneg, within⟩ := range.eq_real negative
      have time : real stop - reply.leftover = real (stop - r) := by simp [hr]
      have same : real stop - Scalar.max (real now) (real (stop - r)) = reply.leftover := by
        simp [hr, le_sub_comm.1 within]
      rw [if_neg negative, time, same]
      exact .ends negative (.together entered (sub_le_self stop nonneg))

theorem Wraps.update (h : Wraps now b c) (under : Underway flaw now b) (hw : now ≤ stop)
    (stage : Stage Exact) : Relays flaw stop (b.update ⟨real now, real stop⟩ stage)
      (c.update ⟨real now, real stop⟩ stage) := by
  cases h with
  | sequence start hn hl =>
    subst start
    rw [Chain.update_new hn hl hw]
    exact Chain.relays_run under (Timing.endless_entered hl stop) hw (fun _ => rfl) stage
  | chain ht =>
    rw [ht.update_chain hw]
    exact Chain.relays_run under (Timing.endless_entered ht.lifespan stop) hw (by simp) stage
  | together ht hl => exact Branch.relays_update under ht hl hw stage

/-- What is spent uses nothing of a window, and stays spent. -/
theorem Spent.update (h : Spent now c) (hw : now ≤ stop) (stage : Stage Exact) :
    ∃ after, c.update ⟨real now, real stop⟩ stage =
      .ok ⟨real stop - real now, after, stage⟩ ∧ Spent stop after := by
  cases h with
  | chain ht =>
    rw [ht.update_chain hw]
    exact ⟨_, rfl, .chain (Timing.endless_entered ht.lifespan stop)⟩
  | @together t b time ht past =>
    refine ⟨.parallel { t with lastStop := some (real stop) } [(b, some (real time))], ?_,
      .together (Timing.endless_entered ht.lifespan stop) (past.trans hw)⟩
    rw [Behavior.update_parallel, Branch.update_iff (.inr ht.lastStop) hw]
    exact ⟨_, .done .nil, by simp [max_eq_left past]⟩

end Updates

section Runs

variable {flaw : Fault Exact → Prop}

theorem Spent.answers (runs : List (Window Exact × Stage Exact)) : ∀ {now : ℝ}
    {c : Behavior Exact}, Spent now c → Contiguous now (runs.map Prod.fst) →
    c.answers runs = .ok (runs.map handedBack) := by
  induction runs with
  | nil => exact fun _ _ => rfl
  | cons run rest ih =>
    obtain ⟨w, stage⟩ := run
    rintro now c spent ⟨stop, hw, rfl, contiguous⟩
    obtain ⟨after, hu, spent⟩ := spent.update hw stage
    rw [Behavior.answers_cons, hu]
    show (after.answers rest).map _ = _
    rw [ih spent contiguous]
    rfl

/-- Window by window the two answer alike, up to the one in which both are complete. -/
theorem Wraps.answersToEnd (runs : List (Window Exact × Stage Exact)) : ∀ {now : ℝ}
    {b c : Behavior Exact}, Wraps now b c → Underway flaw now b →
    Contiguous now (runs.map Prod.fst) → c.answersToEnd runs = b.answersToEnd runs := by
  induction runs with
  | nil => exact fun _ _ _ => rfl
  | cons run rest ih =>
    obtain ⟨w, stage⟩ := run
    rintro now b c wraps under ⟨stop, hw, rfl, contiguous⟩
    have relays := wraps.update under hw stage
    rw [Behavior.answersToEnd, Behavior.answersToEnd]
    generalize b.update ⟨real now, real stop⟩ stage = answer at relays ⊢
    generalize c.update ⟨real now, real stop⟩ stage = answer' at relays ⊢
    cases relays with
    | fault => rfl
    | @goes leftover before after _ _ under wraps =>
      show (if leftover < 0 then (after.answersToEnd rest).map _ else _) =
        if leftover < 0 then (before.answersToEnd rest).map _ else _
      rw [ih wraps under contiguous]
    | @ends leftover before after _ complete _ =>
      show (if leftover < 0 then (after.answersToEnd rest).map _ else _) =
        if leftover < 0 then (before.answersToEnd rest).map _ else _
      rw [if_neg complete, if_neg complete]

/-- Behind the completion all of every window is handed back. -/
theorem Wraps.answers (runs : List (Window Exact × Stage Exact)) : ∀ {now : ℝ}
    {b c : Behavior Exact}, Wraps now b c → Underway flaw now b →
    Contiguous now (runs.map Prod.fst) → c.answers runs =
      (b.answersToEnd runs).map fun told => told ++ (runs.drop told.length).map handedBack := by
  induction runs with
  | nil => exact fun _ _ _ => rfl
  | cons run rest ih =>
    obtain ⟨w, stage⟩ := run
    rintro now b c wraps under ⟨stop, hw, rfl, contiguous⟩
    have relays := wraps.update under hw stage
    rw [Behavior.answers_cons, Behavior.answersToEnd]
    generalize b.update ⟨real now, real stop⟩ stage = answer at relays ⊢
    generalize c.update ⟨real now, real stop⟩ stage = answer' at relays ⊢
    cases relays with
    | fault => rfl
    | @goes leftover before after _ negative under wraps =>
      show (after.answers rest).map _ = (if leftover < 0 then _ else _ : Except _ _).map _
      rw [if_pos negative, ih wraps under contiguous]
      cases before.answersToEnd rest <;> rfl
    | @ends leftover before after _ complete spent =>
      show (after.answers rest).map _ = (if leftover < 0 then _ else _ : Except _ _).map _
      rw [if_neg complete, spent.answers rest contiguous]
      rfl

/-- Whatever stages the windows meet: as long as `b` is not complete, `c` answers as `b` does,
leaves the same stage, and meets the same faults. Behind the completion `b` is not driven any
more, and `c` hands everything back. -/
def Behavior.StandsFor (c b : Behavior Exact) : Prop :=
  ∀ runs : List (Window Exact × Stage Exact), Contiguous 0 (runs.map Prod.fst) →
    c.answersToEnd runs = b.answersToEnd runs ∧
    c.answers runs =
      (b.answersToEnd runs).map fun told => told ++ (runs.drop told.length).map handedBack

theorem Wraps.standsFor {b c : Behavior Exact} (h : Wraps 0 b c) (hb : b.Pristine flaw) :
    c.StandsFor b :=
  fun runs hw => ⟨h.answersToEnd runs hb.underway hw, h.answers runs hb.underway hw⟩

theorem Behavior.StandsFor.trans {b c d : Behavior Exact} (h : d.StandsFor c)
    (h' : c.StandsFor b) : d.StandsFor b := by
  intro runs hw
  obtain ⟨toEnd, all⟩ := h runs hw
  obtain ⟨same, -⟩ := h' runs hw
  exact ⟨toEnd.trans same, same ▸ all⟩

theorem Wraps.of_sequence (b : Behavior Exact) : Wraps 0 b (.sequence [b]) :=
  .sequence rfl rfl rfl

theorem Wraps.of_together (b : Behavior Exact) : Wraps 0 b (.together [b]) :=
  .together (.inl ⟨rfl, rfl⟩) rfl

end Runs

/-! Driven on behind its own end, a sequence does not hand the window back. -/

section Behind

variable {l d : ℝ}

def Behavior.cutOff (l d : ℝ) : Behavior Exact :=
  .chain ⟨.linear, real l, some (real l)⟩ (.list [])
    (some (.leaf ⟨.linear, real d, some (real l)⟩ .pause)) (real 0) false

theorem Behavior.update_cut (hl : 0 ≤ l) (h : l < d) (stage : Stage Exact) :
    ((sequence [pauseFor d]).withTiming (.ofLifespan (real l))).update ⟨real 0, real l⟩ stage =
      .ok ⟨real 0, cutOff l d, stage⟩ := by
  let timing : Timing Exact := ⟨.linear, real l, some (real l)⟩
  have awaits : (Timing.ofLifespan (real d)).Awaits 0 := .inl ⟨rfl, rfl⟩
  have waits : (Timing.ofLifespan (real d)).verdict ⟨real 0, real l⟩ = real (-1) := by
    simp [Timing.verdict, Timing.ofLifespan, h]
  have answer : timing.verdict ⟨real 0, real l⟩ = real 0 := by
    simp [Timing.verdict, timing, hl]
  have whole : Window.stopWithin ⟨real 0, real l⟩ (real l) = real l := by
    simp [Window.stopWithin]
  have window : Chain.childWindow (real 0) (real l) (real 0) true = ⟨real 0, real l⟩ := by
    simp [childStart]
  have child := awaits.update_pause hl stage
  rw [waits, ← window] at child
  have course : Chain.Course Behavior.update timing ⟨real 0, real l⟩
      (Window.stopWithin ⟨real 0, real l⟩ (real l)) Chain.stepLimit (real 0) (.list [])
      (some (pauseFor d)) (real 0) true stage
      ⟨timing.verdict ⟨real 0, real l⟩, cutOff l d, stage⟩ := by
    rw [whole]
    exact .waits child (by simp)
  rw [answer] at course
  rw [sequence, ofSupply, withTiming, update_chain]
  exact (Chain.update_first_iff rfl hl).2 ⟨_, _, _, rfl, course⟩

/-- Behind its lifespan the sequence goes on with the pause. -/
theorem Behavior.exists_update_cutOff (h : l < d) (stage : Stage Exact) :
    ∃ reply, (cutOff l d).update ⟨real l, real d⟩ stage = .ok reply ∧
      reply.leftover = real 0 ∧ reply.stage = stage := by
  let timing : Timing Exact := ⟨.linear, real d, some (real l)⟩
  have awaits : timing.Awaits l := .inr rfl
  have answer : timing.verdict ⟨real l, real d⟩ = real 0 := by
    simp [Timing.verdict, timing, h.le]
  have whole : Window.stopWithin ⟨real l, real d⟩ (real l) = real d := by
    simp [Window.stopWithin]
  have window : Chain.childWindow (real l) (real d) (real 0) false = ⟨real l, real d⟩ := by
    simp [childStart]
  have child := awaits.update_pause h.le stage
  rw [answer, ← window] at child
  have left : real d - Scalar.max (real d - real 0) (real l) = real 0 := by simp [h.le]
  have course : ∃ reply, Chain.Course Behavior.update ⟨.linear, real l, some (real d)⟩
      ⟨real l, real d⟩ (Window.stopWithin ⟨real l, real d⟩ (real l)) Chain.stepLimit (real l)
      (.list []) (some (.leaf timing .pause)) (real 0) false stage reply ∧
      reply.leftover = real 0 ∧ reply.stage = stage := by
    rw [whole]
    exact ⟨_, .ends child (by simp) rfl, left, rfl⟩
  obtain ⟨reply, course, answer, same⟩ := course
  rw [cutOff, update_chain]
  exact ⟨reply, (Chain.update_running_iff rfl h.le).2 course, answer, same⟩

/-- The sequence is complete at the end of its lifespan, and what wraps it hands the second
window back. But the sequence itself, when it is driven on, goes on with the pause. -/
theorem wrapping_shows_behind_end :
    let b : Behavior Exact := (Behavior.sequence [.pauseFor 2]).withTiming (.ofLifespan (real 1))
    let stage : Stage Exact := ⟨.initial, .ofSeed 1, #[]⟩
    let runs : List (Window Exact × Stage Exact) :=
      [(⟨real 0, real 1⟩, stage), (⟨real 1, real 2⟩, stage)]
    b.Pristine (fun _ => False) ∧ Contiguous 0 (runs.map Prod.fst) ∧
      b.answers runs = .ok [(real 0, stage), (real 0, stage)] ∧
      ∀ c ∈ [Behavior.sequence [b], .together [b]],
        c.answers runs = .ok [(real 0, stage), (real 1, stage)] ∧
          c.answers runs ≠ b.answers runs := by
  intro b stage runs
  have parts : ∀ c ∈ [Behavior.pauseFor 2], c.Pristine fun _ => False := by
    simp [Behavior.pristine_pauseFor]
  have fresh : b.Pristine fun _ => False :=
    (Behavior.pristine_sequence parts).withTiming ⟨rfl, by simp [Timing.ofLifespan]⟩
  have contiguous : Contiguous 0 (runs.map Prod.fst) :=
    ⟨1, by norm_num, rfl, 2, by norm_num, rfl, trivial⟩
  have first := Behavior.update_cut zero_le_one one_lt_two stage
  obtain ⟨reply, second, answer, same⟩ := Behavior.exists_update_cutOff one_lt_two stage
  have own : b.answers runs = .ok [(real 0, stage), (real 0, stage)] := by
    rw [Behavior.answers_cons, first]
    show ((Behavior.cutOff 1 2).answers [_]).map _ = _
    rw [Behavior.answers_cons, second]
    show Except.ok [_, (reply.leftover, reply.stage)] = _
    rw [answer, same]
  have toEnd : b.answersToEnd runs = .ok [(real 0, stage)] := by
    rw [Behavior.answersToEnd, first]
    exact if_neg (by simp)
  have rest : handedBack (⟨real 1, real 2⟩, stage) = (real 1, stage) := by
    rw [handedBack]
    norm_num
  have wrapped : ∀ c, Wraps 0 b c → c.answers runs = .ok [(real 0, stage), (real 1, stage)] ∧
      c.answers runs ≠ b.answers runs := by
    intro c wraps
    have all := (wraps.standsFor fresh runs contiguous).2
    rw [toEnd] at all
    have told : c.answers runs = .ok [(real 0, stage), (real 1, stage)] := by
      rw [all, ← rest]
      rfl
    rw [told, own]
    exact ⟨rfl, by simp⟩
  refine ⟨fresh, contiguous, own, ?_⟩
  simp only [List.mem_cons, List.not_mem_nil, or_false, forall_eq_or_imp, forall_eq]
  exact ⟨wrapped _ (.of_sequence b), wrapped _ (.of_together b)⟩

end Behind

end ParticlePatterns
