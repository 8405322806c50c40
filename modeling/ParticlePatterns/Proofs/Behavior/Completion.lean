import ParticlePatterns.Proofs.Behavior.Duration

/-!
# Completion

However the time from 0 on is cut into windows, a behavior is complete once its duration
has passed, and what is left of the last window is what lies behind the duration.
-/

set_option autoImplicit false

namespace ParticlePatterns

open Exact (real)

def Settles (stop d : ℝ) (reply : Reply Exact) : Prop :=
  (reply.leftover < 0 ∧ stop ≤ d ∧ Due stop reply.behavior d) ∨
    (d ≤ stop ∧ reply.leftover = real (stop - d))

def Keeps (now : ℝ) (b : Behavior Exact) (d : ℝ) : Prop :=
  ∀ stop, now ≤ stop → ∀ stage, ∃ reply, b.update ⟨real now, real stop⟩ stage = .ok reply ∧
    Settles stop d reply

namespace Settles

variable {stop d : ℝ} {reply : Reply Exact}

theorem complete (h : Settles stop d reply) (hn : ¬reply.leftover < 0) :
    d ≤ stop ∧ reply.leftover = real (stop - d) := by
  obtain ⟨negative, _⟩ | settled := h
  · exact absurd negative hn
  · exact settled

theorem complete_of_lt (h : Settles stop d reply) (hd : d < stop) :
    reply.leftover = real (stop - d) := by
  obtain ⟨_, later, _⟩ | ⟨_, hr⟩ := h
  · exact absurd hd (not_lt_of_ge later)
  · exact hr

theorem nonneg (h : Settles stop d reply) (hn : ¬reply.leftover < 0) : 0 ≤ reply.leftover := by
  obtain ⟨past, hr⟩ := h.complete hn
  rw [hr]
  simpa using past

theorem due (h : Settles stop d reply) (negative : reply.leftover < 0) :
    Due stop reply.behavior d := by
  obtain ⟨_, _, due⟩ | ⟨past, hr⟩ := h
  · exact due
  · rw [hr, Exact.zero_eq_real, Exact.real_lt_real] at negative
    linarith

end Settles

variable {timing : Timing Exact} {start stop cut : ℝ}

/-- As long as the lifespan decides, whatever comes behind the cut does not matter. -/
theorem settles_verdict {x : ℝ} {b : Behavior Exact} {stage : Stage Exact}
    (hc : timing.CutsAt start stop cut) (later : cut ≤ x)
    (due : real stop < timing.lifespan → cut = stop → Due stop b (cap timing.lifespan x)) :
    Settles stop (cap timing.lifespan x) ⟨timing.verdict ⟨real start, real stop⟩, b, stage⟩ := by
  obtain ⟨hl, rfl, hv⟩ | ⟨hl, hs, hv⟩ := hc
  · exact .inl ⟨by simp [hv], le_cap (Exact.real_le_of_lt hl) later, due hl rfl⟩
  · rw [hl, cap_eq_left later]
    exact .inr ⟨hs, hv⟩

/-- Where the next child starts. -/
theorem max_sub_leftover {now offset d : ℝ} {leftover : Exact}
    (h : leftover = real (stop - offset - d)) (hn : now ≤ offset + d) :
    Scalar.max (real stop - leftover) (real now) = real (offset + d) := by
  have e : stop - (stop - offset - d) = offset + d := by ring
  simp [h, e, hn]

theorem Chain.exists_settled {δ : Behavior Exact → ℝ} (hs : timing.lastStop = some (real stop))
    (h0 : 0 ≤ timing.lifespan) (hc : timing.CutsAt start stop cut) (steps : Nat) :
    ∀ (stage : Stage Exact) {now offset d total : ℝ} {n : Nat} {supply : Supply Exact}
    {child : Behavior Exact} {fresh : Bool}, now ≤ cut → n < steps → n < stepLimit →
    supply.Total → supply.Amounts δ n total → (∀ b, supply.Gives b → Due 0 b (δ b)) →
    (∀ b, supply.Gives b → Keeps 0 b (δ b)) → (fresh = true → offset = now) →
    Due (childStart now offset fresh) child d → Keeps (childStart now offset fresh) child d →
    ∃ reply, Course Behavior.update timing ⟨real start, real stop⟩ (real cut) steps (real now)
      supply (some child) (real offset) fresh stage reply ∧
      Settles stop (cap timing.lifespan (offset + d + total)) reply := by
  induction steps with
  | zero =>
    intro stage now offset d total n supply child fresh _ hn
    exact absurd hn (Nat.not_lt_zero n)
  | succ steps ih =>
    intro stage now offset d total n supply child fresh hnow hn hlimit ht amounts due keeps late
      hdue hkeeps
    have rest : 0 ≤ total := amounts.nonneg ht fun b hb => (due b hb).le
    have begin := childStart_eq late
    have later : now ≤ offset + d := by linarith [hdue.le]
    obtain ⟨answer, ha, settled⟩ := hkeeps (cut - offset) (by linarith) stage
    rw [← childWindow_real] at ha
    obtain ⟨negative, later, hdue'⟩ | ⟨done, hr⟩ := settled
    · refine ⟨_, .waits ha negative, settles_verdict hc (by linarith) fun alive e => ?_⟩
      subst e
      have start' : childStart cut offset false = cut - offset := rfl
      exact .chain hs h0 alive ht amounts hlimit due (fun hf => by cases hf) (start' ▸ hdue')
    · have hnn : ¬answer.leftover < 0 := by
        rw [hr]
        simpa using done
      have next := max_sub_leftover hr later
      obtain ⟨⟨taken, after, rng⟩, htaken⟩ := ht.next answer.stage.rng
      obtain ⟨given, left, total'⟩ := Supply.next_eq_ok htaken
      cases taken with
      | none =>
        have none := amounts.of_next_none htaken
        refine ⟨_, .ends ha hnn htaken, .inr ?_⟩
        have within : offset + d ≤ cut := by linarith
        have e : cap timing.lifespan (offset + d + total) = offset + d := by
          rw [none, add_zero]
          exact cap_eq_right (Exact.real_le_trans within hc.le_lifespan)
        rw [e, next]
        exact ⟨within.trans hc.le_stop, by simp⟩
      | some b =>
        have hb := given b rfl
        obtain ⟨k, rfl, amounts'⟩ := amounts.of_next_some htaken
        have rest' := amounts'.nonneg (total' ht) fun c hc => (due c (left c hc)).le
        have sum : offset + d + total = offset + d + δ b + (total - δ b) := by ring
        have due' := fun c hc => due c (left c hc)
        have start' : childStart (offset + d) (offset + d) true = 0 := rfl
        by_cases hd : real cut ≤ Scalar.max (real cut - answer.leftover) (real now)
        · refine ⟨_, .defers ha hnn htaken hd, ?_⟩
          rw [next, Exact.real_le_real] at hd
          have e : offset + d = cut := by linarith
          rw [next]
          refine settles_verdict hc (by linarith) fun alive hstop => ?_
          rw [sum]
          exact .chain hs h0 alive (total' ht) amounts' (by omega) due' (fun _ => by linarith)
            (start' ▸ due b hb)
        · have earlier : offset + d < cut := by
            rw [next] at hd
            simpa using hd
          obtain ⟨reply, course, settled⟩ := ih { answer.stage with rng } earlier.le (by omega)
            (by omega) (total' ht) amounts' due' (fun c hc => keeps c (left c hc)) (fun _ => rfl)
            (start' ▸ due b hb) (start' ▸ keeps b hb)
          rw [← next] at course
          rw [sum]
          exact ⟨reply, .turns ha hnn htaken hd course, settled⟩

theorem Batch.spawn_total {total : Nat} {body : Gen Exact (Behavior Exact)} (ht : body.Total) :
    ∀ (positions : List Nat) (stage : Stage Exact),
    ∃ after, spawn total body positions stage = .ok after
  | [], stage => ⟨stage, rfl⟩
  | index :: rest, stage => by
      obtain ⟨b, rng, hm⟩ := ht ⟨index, total⟩ stage.rng
      obtain ⟨after, ha⟩ := spawn_total ht rest
        { stage with rng, emitted := stage.emitted.push (.spawnedBy stage.sprite b) }
      exact ⟨after, bind_eq_ok.2 ⟨_, hm, ha⟩⟩

structure Branch.Settled (cut latest : ℝ) (ds : List ℝ) (complete : Bool)
    (result : Branch.Result Exact) : Prop where
  length : ds.length = result.branches.length
  done : result.complete = true → complete = true ∧
    result.latest = real (max latest (ds.foldr max 0)) ∧ ds.foldr max 0 ≤ cut
  left : result.complete = false → complete = false ∨
    ((∃ p ∈ result.branches, p.2 = none) ∧ cut ≤ ds.foldr max 0)
  due : ∀ q ∈ result.branches.zip ds, q.1.2 = none → Due cut q.1.1 q.2
  times : ∀ q ∈ result.branches.zip ds, ∀ time, q.1.2 = some time → time = real q.2 ∧ q.2 ≤ cut

namespace Branch.Settled

variable {latest d : ℝ} {ds : List ℝ} {complete : Bool} {result : Branch.Result Exact}
  {b : Behavior Exact}

theorem cons_done (h : Settled cut (max latest d) ds complete result) (hd : d ≤ cut) :
    Settled cut latest (d :: ds) complete
      { result with branches := (b, some (real d)) :: result.branches } where
  length := by simpa using h.length
  done hc := by
    obtain ⟨hc, hl, hm⟩ := h.done hc
    exact ⟨hc, by rw [hl, max_assoc, List.foldr_cons], max_le hd hm⟩
  left hc := by
    refine (h.left hc).imp_right fun ⟨⟨p, hp, hn⟩, hm⟩ => ⟨⟨p, ?_, hn⟩, le_max_of_le_right hm⟩
    exact List.mem_cons_of_mem _ hp
  due := by
    simp only [List.zip_cons_cons, List.mem_cons, forall_eq_or_imp]
    exact ⟨fun hn => (by cases hn), h.due⟩
  times := by
    simp only [List.zip_cons_cons, List.mem_cons, forall_eq_or_imp]
    exact ⟨fun time ht => ⟨(Option.some.inj ht).symm, hd⟩, h.times⟩

theorem cons_waits (h : Settled cut latest ds false result) (hd : cut ≤ d) (due : Due cut b d) :
    Settled cut latest (d :: ds) complete
      { result with branches := (b, none) :: result.branches } where
  length := by simpa using h.length
  done hc := by cases (h.done hc).1
  left _ := .inr ⟨⟨_, List.mem_cons_self, rfl⟩, le_max_of_le_left hd⟩
  due := by
    simp only [List.zip_cons_cons, List.mem_cons, forall_eq_or_imp]
    exact ⟨fun _ => due, h.due⟩
  times := by
    simp only [List.zip_cons_cons, List.mem_cons, forall_eq_or_imp]
    exact ⟨fun time ht => (by cases ht), h.times⟩

end Branch.Settled

theorem Branch.exists_settled (hw : start ≤ cut) (h0 : 0 ≤ start)
    (branches : List (Behavior Exact × Option Exact)) : ∀ (ds : List ℝ) (complete : Bool)
    (stage : Stage Exact) {latest : ℝ}, 0 ≤ latest → ds.length = branches.length →
    (∀ q ∈ branches.zip ds, q.1.2 = none → Keeps start q.1.1 q.2) →
    (∀ q ∈ branches.zip ds, ∀ time, q.1.2 = some time → time = real q.2 ∧ q.2 ≤ start) →
    ∃ result, Course Behavior.update (real start) (real cut) branches (real latest) complete stage
      result ∧ Settled cut latest ds complete result := by
  induction branches with
  | nil =>
    intro ds complete stage latest hl length _ _
    obtain rfl := List.length_eq_zero_iff.1 length
    refine ⟨_, .nil, rfl, fun hc => ⟨hc, ?_, ?_⟩, .inl, by simp, by simp⟩
    · simp [hl]
    · simpa using h0.trans hw
  | cons p rest ih =>
    intro ds complete stage latest hl length keeps times
    obtain ⟨d, ds, rfl⟩ := List.exists_cons_of_length_eq_add_one length
    simp only [List.zip_cons_cons, List.mem_cons, forall_eq_or_imp] at keeps times
    have length' : ds.length = rest.length := by simpa using length
    obtain ⟨b, time⟩ := p
    cases time with
    | some time =>
      obtain ⟨rfl, hd⟩ := times.1 time rfl
      obtain ⟨result, course, settled⟩ := ih ds complete stage (le_max_of_le_left hl) length'
        keeps.2 times.2
      rw [← Exact.max_real] at course
      exact ⟨_, .done course, settled.cons_done (hd.trans hw)⟩
    | none =>
      obtain ⟨answer, ha, ⟨negative, later, due⟩ | ⟨done, hr⟩⟩ := keeps.1 rfl cut hw stage
      · obtain ⟨result, course, settled⟩ := ih ds false answer.stage hl length' keeps.2 times.2
        exact ⟨_, .waits ha negative course, settled.cons_waits later due⟩
      · have hnn : ¬answer.leftover < 0 := by
          rw [hr]
          simpa using done
        have time : real cut - answer.leftover = real d := by simp [hr]
        obtain ⟨result, course, settled⟩ := ih ds complete answer.stage (le_max_of_le_left hl)
          length' keeps.2 times.2
        rw [← Exact.max_real, ← time] at course
        refine ⟨_, .ends ha hnn course, ?_⟩
        rw [time]
        exact settled.cons_done done

/-- What is complete when its lifespan is over is due then. -/
theorem settles_lifespan {now d : ℝ} {b : Behavior Exact} {stage : Stage Exact}
    (hl : timing.lifespan = real d) (hd : now ≤ d) (due : stop ≤ d → Due stop b d) :
    Settles stop d ⟨timing.verdict ⟨real now, real stop⟩, b, stage⟩ := by
  by_cases past : d ≤ stop
  · exact .inr ⟨past, by simp [Timing.verdict, hl, past, hd]⟩
  · have later := le_of_not_ge past
    exact .inl ⟨by simp [Timing.verdict, hl, past], later, due later⟩

theorem Due.keeps {now d : ℝ} {b : Behavior Exact} (h : Due now b d) : Keeps now b d := by
  induction h with
  | @leaf now d timing effect awaits hl h0 hd =>
    intro stop hw stage
    refine ⟨_, Effect.update_eq_ok.2 ⟨_, _, awaits.enter hw, rfl⟩, ?_⟩
    exact settles_lifespan hl hd fun later => .leaf (.inr rfl) hl (h0.trans hw) later
  | @emit now d timing batch body awaits hl h0 hd ht =>
    intro stop hw stage
    obtain ⟨after, hs⟩ := Batch.spawn_total ht ((batch.moments
      { timing with lastStop := some (real stop) } ⟨real now, real stop⟩).flatMap batch.positions)
      stage
    refine ⟨_, Batch.update_eq_ok.2 ⟨_, _, after, awaits.enter hw, hs, rfl⟩, ?_⟩
    exact settles_lifespan hl hd fun later => .emit (.inr rfl) hl (h0.trans hw) later ht
  | @first timing supply current offset fresh δ n total hn hl ht amounts limit due ih =>
    intro stop hw stage
    have alive : real 0 < timing.lifespan := Exact.zero_eq_real ▸ hl
    have h0 := Exact.nonneg_of_pos hl
    obtain ⟨cut, hc, later, cuts⟩ := Timing.exists_cutsAt h0 alive hw
    obtain ⟨⟨taken, after, rng⟩, htaken⟩ := ht.next stage.rng
    obtain ⟨given, left, total'⟩ := Supply.next_eq_ok htaken
    have settles : ∃ reply, Chain.Course Behavior.update
        { timing with lastStop := some (real stop) } ⟨real 0, real stop⟩ (real cut)
        Chain.stepLimit (real 0) after taken (real 0) true { stage with rng } reply ∧
        Settles stop (cap timing.lifespan total) reply := by
      cases taken with
      | none =>
        refine ⟨_, .idle, .inr ?_⟩
        rw [amounts.of_next_none htaken, cap_eq_right (Exact.real_le_of_lt alive)]
        exact ⟨hw, by simp⟩
      | some child =>
        have hb := given child rfl
        obtain ⟨k, rfl, amounts'⟩ := amounts.of_next_some htaken
        have start' : childStart 0 0 true = 0 := rfl
        obtain ⟨reply, course, settled⟩ := Chain.exists_settled (rfl : Timing.lastStop
          { timing with lastStop := some (real stop) } = some (real stop)) h0 cuts
          Chain.stepLimit { stage with rng } later (by omega) (by omega) (total' ht) amounts'
          (fun b hb => due b (left b hb)) (fun b hb => ih b (left b hb)) (fun _ => rfl)
          (start' ▸ due child hb) (start' ▸ ih child hb)
        have sum : 0 + δ child + (total - δ child) = total := by ring
        rw [sum] at settled
        exact ⟨reply, course, settled⟩
    obtain ⟨reply, course, settled⟩ := settles
    rw [← hc] at course
    rw [Behavior.update_chain]
    exact ⟨reply, (Chain.update_first_iff hn hw).2 ⟨taken, after, rng, htaken, course⟩, settled⟩
  | @chain now offset d timing supply child fresh δ n total hs h0 alive ht amounts limit due late
      hdue ih ih' =>
    intro stop hw stage
    obtain ⟨cut, hc, later, cuts⟩ := Timing.exists_cutsAt h0 alive hw
    obtain ⟨reply, course, settled⟩ := Chain.exists_settled (rfl : Timing.lastStop
      { timing with lastStop := some (real stop) } = some (real stop)) h0 cuts Chain.stepLimit
      stage later limit limit ht amounts due ih late hdue ih'
    rw [← hc] at course
    rw [Behavior.update_chain]
    exact ⟨reply, (Chain.update_running_iff hs hw).2 course, settled⟩
  | @parallel now timing branches ds awaits h0 alive hnow length left due times ih =>
    intro stop hw stage
    have whole := (Due.parallel awaits h0 alive hnow length left due times).le
    obtain ⟨cut, hc, later, cuts⟩ := Timing.exists_cutsAt h0 alive hw
    obtain ⟨result, course, settled⟩ := Branch.exists_settled later hnow branches ds true stage
      hnow length ih times
    rw [← hc] at course
    rw [Behavior.update_parallel]
    refine ⟨_, (Branch.update_iff awaits hw).2 ⟨result, course, rfl⟩, ?_⟩
    cases complete : result.complete with
    | true =>
      obtain ⟨_, hl, hm⟩ := settled.done complete
      have e := cap_eq_right (Exact.real_le_trans hm cuts.le_lifespan)
      rw [e] at whole ⊢
      refine .inr ⟨hm.trans cuts.le_stop, ?_⟩
      simp [hl, max_eq_right whole]
    | false =>
      obtain ⟨rest, hm⟩ := (settled.left complete).resolve_left (by simp)
      refine settles_verdict cuts hm fun on e => ?_
      subst e
      exact .parallel (.inr rfl) h0 on (hnow.trans hw) settled.length (fun _ => rest) settled.due
        settled.times

theorem Due.settles {now d stop : ℝ} {b : Behavior Exact} {stage : Stage Exact}
    {reply : Reply Exact} (h : Due now b d) (hw : now ≤ stop)
    (hu : b.update ⟨real now, real stop⟩ stage = .ok reply) : Settles stop d reply := by
  obtain ⟨reply', hu', settled⟩ := h.keeps stop hw stage
  rw [hu] at hu'
  cases hu'
  exact settled

structure Outcome (α : Type) where
  behavior : Behavior α
  stage : Stage α
  /-- The window in which it was complete, and the time left over there. -/
  completion : Option (Window α × α)

def Behavior.through {α : Type} [Scalar α] (b : Behavior α) :
    List (Window α) → Stage α → Except (Fault α) (Outcome α)
  | [], stage => .ok ⟨b, stage, none⟩
  | w :: rest, stage => do
      let reply ← b.update w stage
      if 0 ≤ reply.leftover then pure ⟨reply.behavior, reply.stage, some (w, reply.leftover)⟩
      else reply.behavior.through rest reply.stage

section Through

variable {α : Type} [Scalar α] {b : Behavior α} {w : Window α} {rest : List (Window α)}
  {stage : Stage α} {reply : Reply α}

theorem Behavior.through_of_nonneg (hu : b.update w stage = .ok reply)
    (h : 0 ≤ reply.leftover) :
    b.through (w :: rest) stage = .ok ⟨reply.behavior, reply.stage, some (w, reply.leftover)⟩ := by
  refine bind_eq_ok.2 ⟨reply, hu, ?_⟩
  rw [if_pos h]
  rfl

theorem Behavior.through_of_not_nonneg (hu : b.update w stage = .ok reply)
    (h : ¬0 ≤ reply.leftover) :
    b.through (w :: rest) stage = reply.behavior.through rest reply.stage := by
  rw [through, hu]
  exact if_neg h

end Through

def Contiguous : ℝ → List (Window Exact) → Prop
  | _, [] => True
  | now, w :: rest => ∃ stop, now ≤ stop ∧ w = ⟨real now, real stop⟩ ∧ Contiguous stop rest

theorem Due.through {d : ℝ} (ws : List (Window Exact)) : ∀ {now : ℝ} {b : Behavior Exact},
    Due now b d → Contiguous now ws → ∀ stage : Stage Exact, ∃ o, b.through ws stage = .ok o ∧
      (o.completion = none → ∀ w ∈ ws, w.stop ≤ real d) ∧
      ∀ w r, o.completion = some (w, r) →
        w ∈ ws ∧ w.start ≤ real d ∧ real d ≤ w.stop ∧ w.stop - r = real d := by
  induction ws with
  | nil => exact fun _ _ stage => ⟨_, rfl, by simp, by simp⟩
  | cons w rest ih =>
    rintro now b due ⟨stop, hw, rfl, contiguous⟩ stage
    obtain ⟨reply, hu, ⟨negative, later, due'⟩ | ⟨done, hr⟩⟩ := due.keeps stop hw stage
    · obtain ⟨o, ho, open', closed⟩ := ih due' contiguous reply.stage
      refine ⟨o, ?_, ?_, ?_⟩
      · rw [Behavior.through_of_not_nonneg hu (Exact.not_le_of_lt negative), ho]
      · intro hn
        simp only [List.mem_cons, forall_eq_or_imp]
        exact ⟨Exact.real_le_real.2 later, open' hn⟩
      · intro w r hc
        obtain ⟨hm, inside⟩ := closed w r hc
        exact ⟨List.mem_cons_of_mem _ hm, inside⟩
    · have nonneg : 0 ≤ reply.leftover := by
        rw [hr]
        simpa using done
      refine ⟨_, Behavior.through_of_nonneg hu nonneg, ?_, ?_⟩
      · intro hn
        cases hn
      · intro w r hc
        cases hc
        refine ⟨List.mem_cons_self, Exact.real_le_real.2 due.le, Exact.real_le_real.2 done, ?_⟩
        simp [hr]

/-- Whatever the windows and whatever the stage: a behavior that lasts until `d` is not
complete in a window before that, and what is left over of the window in which it is
complete starts at `d`. -/
theorem complete_at_duration {b : Behavior Exact} {d : ℝ} (h : Lasts b d)
    {ws : List (Window Exact)} (hw : Contiguous 0 ws) (stage : Stage Exact) :
    ∃ o, b.through ws stage = .ok o ∧
      (o.completion = none → ∀ w ∈ ws, w.stop ≤ real d) ∧
      ∀ w r, o.completion = some (w, r) →
        w ∈ ws ∧ w.start ≤ real d ∧ real d ≤ w.stop ∧ w.stop - r = real d :=
  h.due.through ws hw stage

/-- Half a unit and then one beside nothing, cut off after two: complete halfway through
the second unit. -/
theorem complete_at_duration_nested :
    let leaf (x : ℝ) : Behavior Exact := Behavior.pause.withTiming (.ofLifespan (real x))
    let b := (Behavior.sequence [leaf (1 / 2), .together [leaf 1, leaf 0]]).withTiming
      (.ofLifespan (real 2))
    let ws : List (Window Exact) := [⟨real 0, real 1⟩, ⟨real 1, real 3⟩]
    let stage : Stage Exact := ⟨.initial, .ofSeed 1, #[]⟩
    Lasts b (3 / 2) ∧ Contiguous 0 ws ∧ ∃ o, b.through ws stage = .ok o ∧
      ∀ w r, o.completion = some (w, r) → w.stop - r = real (3 / 2) := by
  intro leaf b ws stage
  let δ (b : Behavior Exact) : ℝ := cap b.timing.lifespan 1
  have lasts : ∀ x : ℝ, 0 ≤ x → x ≤ 1 → Lasts (leaf x) (δ (leaf x)) := by
    intro x h0 h1
    have e : δ (leaf x) = x := cap_eq_left h1
    rw [e]
    exact .effect rfl rfl h0
  have beside : Lasts (.together [leaf 1, leaf 0]) 1 := by
    have h : Lasts ((Behavior.together [leaf 1, leaf 0]).withTiming .unbounded)
        (cap Scalar.infinity (([leaf 1, leaf 0].map δ).foldr max 0)) := by
      refine .together rfl (by simp [Timing.unbounded, Timing.ofLifespan]) ?_
      simp only [List.mem_cons, List.not_mem_nil, or_false, forall_eq_or_imp, forall_eq]
      exact ⟨lasts 1 zero_le_one (le_refl 1), lasts 0 (le_refl 0) zero_le_one⟩
    have e : cap Scalar.infinity (([leaf 1, leaf 0].map δ).foldr max 0) = 1 := by
      show max (min 1 1) (max (min 0 1) 0) = (1 : ℝ)
      norm_num
    rw [e] at h
    exact h
  have hb : Lasts b (3 / 2) := by
    have h : Lasts b (cap (real 2) (([leaf (1 / 2), .together [leaf 1, leaf 0]].map δ).sum)) := by
      refine .sequence rfl (by simp [Timing.ofLifespan]) (by decide) ?_
      simp only [List.mem_cons, List.not_mem_nil, or_false, forall_eq_or_imp, forall_eq]
      exact ⟨lasts (1 / 2) (by norm_num) (by norm_num), beside⟩
    have e : cap (real 2) (([leaf (1 / 2), .together [leaf 1, leaf 0]].map δ).sum) = 3 / 2 := by
      show min 2 (min (1 / 2) 1 + (1 + 0)) = (3 / 2 : ℝ)
      norm_num
    rw [e] at h
    exact h
  have contiguous : Contiguous 0 ws :=
    ⟨1, zero_le_one, rfl, 3, by norm_num, rfl, trivial⟩
  obtain ⟨o, ho, _, closed⟩ := complete_at_duration hb contiguous stage
  exact ⟨hb, contiguous, o, ho, fun w r hc => (closed w r hc).2.2.2⟩

end ParticlePatterns
