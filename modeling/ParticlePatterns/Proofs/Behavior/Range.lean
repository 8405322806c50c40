import Mathlib
import ParticlePatterns.Proofs.Behavior.Lifespan
import ParticlePatterns.Proofs.Behavior.Mending

/-!
# The range of answers

Driven window by window, a behavior answers minus one exactly, or a part of the window. What it
answers is up to its timing as long as something is left to drive, and otherwise it is the time
of the last completion, which lies in the window. Bodies may fail: once they are mended the
behavior keeps to the window protocol, and it answers alike up to the first failure. Branches
whose time is recorded are passed over from then on.
-/

set_option autoImplicit false

namespace ParticlePatterns

open Exact (real)

/-- What `b` has become when it is driven from one time to another. No window comes behind an
answer that is not negative. -/
inductive Driven (b : Behavior Exact) (start : ℝ) : ℝ → Behavior Exact → Prop
  | rest : Driven b start start b
  | window {now stop : ℝ} {c : Behavior Exact} {stage : Stage Exact} {reply : Reply Exact} :
      Driven b start now c → now ≤ stop → c.update ⟨real now, real stop⟩ stage = .ok reply →
      reply.leftover < 0 → Driven b start stop reply.behavior

def InRange (start stop : ℝ) (leftover : Exact) : Prop :=
  leftover = real (-1) ∨ ∃ r, leftover = real r ∧ 0 ≤ r ∧ r ≤ stop - start

section Answers

variable {start stop : ℝ} {b : Behavior Exact} {stage : Stage Exact} {reply : Reply Exact}

theorem InRange.eq_minus_one {leftover : Exact} (h : InRange start stop leftover)
    (negative : leftover < 0) : leftover = real (-1) := by
  refine h.resolve_right ?_
  rintro ⟨r, rfl, nonneg, -⟩
  exact absurd nonneg (not_le_of_gt (by simpa using negative))

theorem InRange.eq_real {leftover : Exact} (h : InRange start stop leftover)
    (complete : ¬leftover < 0) : ∃ r, leftover = real r ∧ 0 ≤ r ∧ r ≤ stop - start := by
  refine h.resolve_left ?_
  rintro rfl
  exact complete (by simp)

theorem Timing.verdict_of_neg {t : Timing Exact} (h : 0 ≤ t.lifespan)
    (negative : t.verdict ⟨real start, real stop⟩ < 0) (hw : start ≤ stop) :
    t.verdict ⟨real start, real stop⟩ = real (-1) := by
  obtain ⟨l, _, _, past, hv⟩ | ⟨_, hv⟩ := @verdict_cases t start stop h
  · rw [hv, Exact.zero_eq_real, Exact.real_lt_real, sub_neg] at negative
    exact absurd (max_le past hw) (not_le_of_gt negative)
  · exact hv

/-- What may be driven on has not come to its end, so that it is the timing that answers. -/
theorem InTime.inRange (h : InTime b.timing.lifespan start stop reply) (hw : start ≤ stop)
    (hu : b.update ⟨real start, real stop⟩ stage = .ok reply) :
    InRange start stop reply.leftover := by
  obtain ⟨negative, ready⟩ | part := h.answer
  · left
    have timing := Behavior.timing_of_update hu
    have left : ¬reply.behavior.Exhausted := fun exhausted =>
      ready.not_over ⟨real stop, by rw [timing], .inr exhausted⟩
    have verdict := (Behavior.answer_of_update hu).resolve_right left
    have nonneg := ready.alive.nonneg
    rw [timing] at nonneg
    rw [verdict] at negative ⊢
    exact Timing.verdict_of_neg nonneg negative hw
  · exact .inr part

end Answers

section Driving

variable {flaw : Fault Exact → Prop} {now stop : ℝ} {b c : Behavior Exact}

structure Underway (flaw : Fault Exact → Prop) (now : ℝ) (b : Behavior Exact) : Prop where
  contained : b.Lawful (Gen.Contained flaw) ⊤
  ready : Ready now b.mended
  known : Known b.mended

theorem Behavior.Pristine.lawful (h : b.Pristine flaw) : b.Lawful (Gen.Contained flaw) ⊤ := by
  induction h with
  | leaf => exact .leaf
  | emit _ _ _ failed ih => exact .emit failed le_top ih
  | @body _ body sibling remaining _ _ failed ih =>
    refine .chain ?_ (fun b ⟨r, after, hb⟩ => ih b ⟨sibling, r, after, hb⟩) (by simp)
    rintro _ _ _ ⟨⟩
    exact failed
  | sequence _ _ ih => exact .chain (by rintro _ _ _ ⟨⟩) ih (by simp)
  | together _ _ _ ih => exact .parallel ih

theorem Behavior.Pristine.underway (h : b.Pristine flaw) : Underway flaw 0 b :=
  ⟨h.lawful, h.mended.built.ready, [], .start h.mended.built⟩

/-- Before the first failure the answer is that of the mended behavior. -/
theorem Underway.update (h : Underway flaw now b) (hw : now ≤ stop) (stage : Stage Exact) :
    EndsIn (fun reply => InRange now stop reply.leftover ∧
        (reply.leftover < 0 → Underway flaw stop reply.behavior))
      flaw (b.update ⟨real now, real stop⟩ stage) := by
  obtain ⟨answer, ha, inTime, known⟩ := h.ready.inTime h.known hw (Translation.mending.stage stage)
  have range := inTime.inRange hw ha
  have mended := h.contained.translated Translation.mending_faithful ⟨real now, real stop⟩ stage
  have lawful := h.contained.upholds.2 ⟨real now, real stop⟩ stage
  cases hu : b.update ⟨real now, real stop⟩ stage with
  | error fault =>
    rw [hu] at mended
    obtain allowed | failed := mended
    · exact allowed
    · cases failed.symm.trans ha
  | ok reply =>
    rw [hu] at mended lawful
    obtain rfl : Translation.mending.reply reply = answer := Except.ok.inj (mended.symm.trans ha)
    refine ⟨range, fun negative => ⟨lawful.1, ?_, known⟩⟩
    obtain ⟨_, _, ready⟩ | ⟨time, hr, _, within, _⟩ := inTime
    · exact ready
    · have leftover : reply.leftover = real (stop - time) := hr
      rw [leftover, Exact.zero_eq_real, Exact.real_lt_real] at negative
      linarith

theorem Underway.of_update (h : Underway flaw now b) (hw : now ≤ stop) {stage : Stage Exact}
    {reply : Reply Exact} (hu : b.update ⟨real now, real stop⟩ stage = .ok reply) :
    InRange now stop reply.leftover ∧
      (reply.leftover < 0 → Underway flaw stop reply.behavior) := by
  have outcome := h.update hw stage
  rwa [hu] at outcome

theorem Driven.underway {start : ℝ} (hb : Underway flaw start b) (h : Driven b start now c) :
    Underway flaw now c := by
  induction h with
  | rest => exact hb
  | window _ hw hu negative ih => exact (ih.of_update hw hu).2 negative

theorem Underway.branch {timing : Timing Exact} {branches : List (Behavior Exact × Option Exact)}
    (h : Underway flaw now (.parallel timing branches)) {p : Behavior Exact × Option Exact}
    (hp : p ∈ branches) (waiting : p.2 = none) : Underway flaw now p.1 := by
  obtain ⟨contained, ready, -⟩ := h
  rw [Behavior.mended, Behavior.mendedBranches_eq_map] at ready
  have hm : (p.1.mended, p.2) ∈ branches.map fun p => (p.1.mended, p.2) :=
    List.mem_map_of_mem hp
  cases contained with
  | parallel lawful =>
    cases ready with
    | parallel _ _ known ready _ => exact ⟨lawful p hp, ready _ hm waiting, known _ hm waiting⟩

theorem Underway.alive (h : Underway flaw now b) : b.timing.Alive now := by
  have same : b.mended.timing = b.timing := by cases b <;> rfl
  exact same ▸ h.ready.alive

end Driving

namespace Branch

section Passing

variable {α : Type}

def muted (alarm : Fault α) : Awake α × Option α → Awake α × Option α
  | (b, none) => (b, none)
  | (b, some time) => (⟨b.behavior, fun _ _ => .error alarm⟩, some time)

def Unmoved (before after : Behavior α × Option α) : Prop :=
  before.2 ≠ none → after = before

theorem unmoved_refl (branches : List (Behavior α × Option α)) :
    List.Forall₂ Unmoved branches branches :=
  List.forall₂_same.2 fun _ _ _ => rfl

theorem unmoved_trans {before mid after : List (Behavior α × Option α)}
    (h : List.Forall₂ Unmoved before mid) (h' : List.Forall₂ Unmoved mid after) :
    List.Forall₂ Unmoved before after := by
  induction h generalizing after with
  | nil => exact h'
  | cons first _ ih =>
    cases h' with
    | cons next rest =>
      refine .cons (fun recorded => ?_) (ih rest)
      obtain rfl := first recorded
      exact next recorded

variable [Scalar α]

theorem run_muted (alarm : Fault α) (start stop : α) : ∀ (branches : List (Awake α × Option α))
    (latest : α) (complete : Bool) (stage : Stage α),
    run start stop (branches.map (muted alarm)) latest complete stage =
      run start stop branches latest complete stage
  | [], _, _, _ => rfl
  | (b, some time) :: rest, latest, complete, stage => by
      rw [List.map_cons, muted, run, run, run_muted alarm start stop rest]
  | (b, none) :: rest, latest, complete, stage => by
      simp only [List.map_cons, muted, run, run_muted alarm start stop rest]

/-- No branch is updated once its time is recorded, or the alarm would be raised. -/
theorem update_muted (alarm : Fault α) (timing : Timing α)
    (branches : List (Awake α × Option α)) :
    update timing (branches.map (muted alarm)) = update timing branches := by
  funext w stage
  simp only [update, run_muted]

theorem Course.unmoved {update : Behavior α → Update α} {start stop : α}
    {branches : List (Behavior α × Option α)} {latest : α} {complete : Bool} {stage : Stage α}
    {result : Result α} (h : Course update start stop branches latest complete stage result) :
    List.Forall₂ Unmoved branches result.branches := by
  induction h with
  | nil => exact .nil
  | done _ ih => exact .cons (fun _ => rfl) ih
  | waits _ _ _ ih => exact .cons (fun recorded => absurd rfl recorded) ih
  | ends _ _ _ ih => exact .cons (fun recorded => absurd rfl recorded) ih

end Passing

inductive Visit (now cut : ℝ) :
    Behavior Exact × Option Exact → Behavior Exact × Option Exact → Prop
  | passed {b : Behavior Exact} {time : Exact} : Visit now cut (b, some time) (b, some time)
  | waits {b : Behavior Exact} {stage : Stage Exact} {answer : Reply Exact} :
      b.update ⟨real now, real cut⟩ stage = .ok answer → answer.leftover < 0 →
      Visit now cut (b, none) (answer.behavior, none)
  | ends {b : Behavior Exact} {stage : Stage Exact} {answer : Reply Exact} {time : ℝ} :
      b.update ⟨real now, real cut⟩ stage = .ok answer →
      answer.leftover = real (cut - time) → now ≤ time → time ≤ cut →
      Visit now cut (b, none) (answer.behavior, some (real time))

theorem Course.visits {flaw : Fault Exact → Prop} {now cut : ℝ}
    {branches : List (Behavior Exact × Option Exact)} {latest : Exact} {complete : Bool}
    {stage : Stage Exact} {result : Result Exact} (hw : now ≤ cut)
    (h : Course Behavior.update (real now) (real cut) branches latest complete stage result) :
    (∀ p ∈ branches, p.2 = none → Underway flaw now p.1) →
    List.Forall₂ (Visit now cut) branches result.branches := by
  induction h with
  | nil => exact fun _ => .nil
  | done _ ih => exact fun under => .cons .passed (ih (List.forall_mem_cons.1 under).2)
  | waits ha negative _ ih =>
    exact fun under => .cons (.waits ha negative) (ih (List.forall_mem_cons.1 under).2)
  | ends ha complete _ ih =>
    intro under
    obtain ⟨first, rest⟩ := List.forall_mem_cons.1 under
    obtain ⟨r, hr, nonneg, within⟩ := ((first rfl).of_update hw ha).1.eq_real complete
    have ended : Visit now cut _ (_, some (real (cut - r))) :=
      .ends ha (by simp [hr]) (by linarith) (by linarith)
    rw [hr, Exact.real_sub_real]
    exact .cons ended (ih rest)

end Branch

section Branches

variable {timing : Timing Exact} {branches : List (Behavior Exact × Option Exact)} {now stop : ℝ}

theorem Behavior.branches_of_update {α : Type} [Scalar α] {timing : Timing α}
    {branches : List (Behavior α × Option α)} {w : Window α} {stage : Stage α} {reply : Reply α}
    (h : (parallel timing branches).update w stage = .ok reply) :
    ∃ entered after, reply.behavior = .parallel entered after ∧
      List.Forall₂ Branch.Unmoved branches after := by
  rw [update_parallel] at h
  obtain ⟨_, entered, result, _, course, rfl⟩ := Branch.update_eq_ok.1 h
  exact ⟨entered, result.branches, rfl, course.unmoved⟩

/-- A recorded time stays, and so does the branch. -/
theorem Driven.unmoved {c : Behavior Exact} {later : ℝ}
    (h : Driven (.parallel timing branches) now later c) :
    ∃ entered after, c = .parallel entered after ∧
      List.Forall₂ Branch.Unmoved branches after := by
  induction h with
  | rest => exact ⟨timing, branches, rfl, Branch.unmoved_refl branches⟩
  | window _ _ hu _ ih =>
    obtain ⟨entered, mid, rfl, before⟩ := ih
    obtain ⟨entered, after, e, behind⟩ := Behavior.branches_of_update hu
    exact ⟨entered, after, e, Branch.unmoved_trans before behind⟩

theorem Underway.visits {flaw : Fault Exact → Prop} {stage : Stage Exact} {reply : Reply Exact}
    (h : Underway flaw now (.parallel timing branches)) (hw : now ≤ stop)
    (hu : (Behavior.parallel timing branches).update ⟨real now, real stop⟩ stage = .ok reply) :
    ∃ entered after cut, cut ≤ stop ∧ reply.behavior = .parallel entered after ∧
      List.Forall₂ (Branch.Visit now cut) branches after := by
  have alive : timing.Alive now := h.alive
  obtain ⟨cut, hc, clips⟩ := alive.exists_clips hw
  rw [Behavior.update_parallel, Branch.update_iff alive.awaits hw, hc] at hu
  obtain ⟨result, course, rfl⟩ := hu
  exact ⟨_, _, cut, clips.le_stop, rfl,
    course.visits clips.later fun p hp waiting => h.branch hp waiting⟩

end Branches

/-- Whatever it is made of and however it has been driven so far, a behavior answers every
window that may come next with minus one or a part of the window, unless one of its bodies
fails. A branch is not updated any more once its time is recorded. The time lies in the
window in which the branch came to its end, and is kept from then on. -/
theorem answer_in_range {flaw : Fault Exact → Prop} {b c : Behavior Exact} {now stop : ℝ}
    (hb : b.Pristine flaw) (driven : Driven b 0 now c) (hw : now ≤ stop) :
    (∀ stage, EndsIn (fun reply => InRange now stop reply.leftover) flaw
      (c.update ⟨real now, real stop⟩ stage)) ∧
    (∀ (timing : Timing Exact) branches alarm, (Behavior.parallel timing branches).update =
      Branch.update timing (branches.map fun p => Branch.muted alarm (p.1.wake, p.2))) ∧
    ∀ timing branches, c = .parallel timing branches →
      (∀ stage reply, c.update ⟨real now, real stop⟩ stage = .ok reply →
        ∃ entered after cut, cut ≤ stop ∧ reply.behavior = .parallel entered after ∧
          List.Forall₂ (Branch.Visit now cut) branches after) ∧
      ∀ later d, Driven c now later d → ∃ entered after, d = .parallel entered after ∧
        List.Forall₂ Branch.Unmoved branches after := by
  have underway := driven.underway hb.underway
  refine ⟨fun stage => (underway.update hw stage).mono (fun _ h => h.1) fun _ h => h, ?_, ?_⟩
  · intro timing branches alarm
    have awake : branches.map (fun p => Branch.muted alarm (p.1.wake, p.2)) =
        (branches.map fun p => (p.1.wake, p.2)).map (Branch.muted alarm) := by
      rw [List.map_map]
      rfl
    rw [awake, Branch.update_muted, Behavior.update, Behavior.wakeBranches_eq_map]
  · rintro timing branches rfl
    exact ⟨fun stage reply hu => underway.visits hw hu, fun later d h => h.unmoved⟩

section Runs

theorem Behavior.pristine_pauseFor {l : ℝ} (h : 0 ≤ l) :
    (pauseFor l).Pristine fun _ => False :=
  .leaf ⟨rfl, by simpa [Timing.ofLifespan] using h⟩ trivial

theorem Behavior.exists_update_pauseFor {l r stop : ℝ} (hw : 0 ≤ stop)
    (verdict : (Timing.ofLifespan (real l)).verdict ⟨real 0, real stop⟩ = real r)
    (stage : Stage Exact) : ∃ answer,
      (pauseFor l).update ⟨real 0, real stop⟩ stage = .ok answer ∧ answer.leftover = real r := by
  have awaits : (Timing.ofLifespan (real l)).Awaits 0 := .inl ⟨rfl, rfl⟩
  exact ⟨_, awaits.update_pause hw stage, verdict⟩

/-- A pause of one unit and one of three: after two units the time of the first is recorded. -/
theorem Driven.exists_recorded (stage : Stage Exact) : ∃ timing p q, p.2 = some (real 1) ∧
    q.2 = none ∧
    Driven (.together [.pauseFor 1, .pauseFor 3]) 0 2 (.parallel timing [p, q]) := by
  have ends : (Timing.ofLifespan (real 1)).verdict ⟨real 0, real 2⟩ = real 1 := by
    norm_num [Timing.verdict, Timing.ofLifespan]
  have later : ¬(Timing.ofLifespan (real 3)).lifespan ≤ real 2 := by norm_num [Timing.ofLifespan]
  have waits : (Timing.ofLifespan (real 3)).verdict ⟨real 0, real 2⟩ = real (-1) :=
    (if_neg later).trans (by simp)
  obtain ⟨one, ended, left⟩ := Behavior.exists_update_pauseFor zero_le_two ends stage
  obtain ⟨two, waited, negative⟩ := Behavior.exists_update_pauseFor zero_le_two waits one.stage
  have course : ∃ latest, Branch.Course Behavior.update (real 0)
      (Window.stopWithin ⟨real 0, real 2⟩ (Timing.unbounded : Timing Exact).lifespan)
      [(.pauseFor 1, none), (.pauseFor 3, none)] (real 0) true stage
      ⟨latest, false, [(one.behavior, some (real 2 - one.leftover)), (two.behavior, none)],
        two.stage⟩ := by
    rw [Timing.stopWithin_endless rfl]
    exact ⟨_, .ends ended (by simp [left]) (.waits waited (by simp [negative]) .nil)⟩
  obtain ⟨latest, course⟩ := course
  have hu := (Branch.update_iff (.inl ⟨rfl, rfl⟩) zero_le_two).2 ⟨_, course, rfl⟩
  rw [← Behavior.update_parallel] at hu
  refine ⟨_, _, _, ?_, rfl, .window .rest zero_le_two hu ?_⟩
  · norm_num [left]
  · simp [Timing.verdict, Timing.unbounded, Timing.ofLifespan]

/-- The next window goes to the second pause only. -/
theorem answer_in_range_recorded :
    let b := Behavior.together [.pauseFor 1, .pauseFor 3]
    let stage : Stage Exact := ⟨.initial, .ofSeed 1, #[]⟩
    b.Pristine (fun _ => False) ∧
      ∃ timing p q, p.2 = some (real 1) ∧ q.2 = none ∧ Driven b 0 2 (.parallel timing [p, q]) ∧
        ∃ reply, (Behavior.parallel timing [p, q]).update ⟨real 2, real 4⟩ stage = .ok reply ∧
          InRange 2 4 reply.leftover ∧ ∃ entered cut q', cut ≤ 4 ∧
            reply.behavior = .parallel entered [p, q'] ∧ Branch.Visit 2 cut q q' := by
  intro b stage
  have fresh : b.Pristine fun _ => False := by
    refine Behavior.pristine_together ?_
    simp [Behavior.pristine_pauseFor]
  obtain ⟨timing, p, q, recorded, waiting, driven⟩ := Driven.exists_recorded stage
  refine ⟨fresh, timing, p, q, recorded, waiting, driven, ?_⟩
  obtain ⟨answers, -, parts⟩ := answer_in_range fresh driven (by norm_num : (2 : ℝ) ≤ 4)
  have range := answers stage
  cases hu : (Behavior.parallel timing [p, q]).update ⟨real 2, real 4⟩ stage with
  | error fault =>
    rw [hu] at range
    exact range.elim
  | ok reply =>
    rw [hu] at range
    obtain ⟨entered, after, cut, within, e, visits⟩ := (parts _ _ rfl).1 stage reply hu
    cases visits with
    | cons first rest =>
      cases rest with
      | cons second rest =>
        cases rest
        cases first with
        | passed => exact ⟨reply, rfl, range, entered, cut, _, within, e, second⟩
        | waits => cases recorded
        | ends => cases recorded

end Runs

end ParticlePatterns
