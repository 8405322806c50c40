import ParticlePatterns.Proofs.Behavior.Flattening

/-!
# Pacing

A chain starts its behaviors one right behind the other: each at the time at which the one before
it has come to its end. To see when that is, every start is noted down while the chain runs, and
nothing else is changed. What holds a chain up is the limit to the behaviors it completes in one
window: the one it is left with then is still driven from where it belongs, but if it comes to
its end before the next window starts, the next one has to wait for that.
-/

set_option autoImplicit false

namespace ParticlePatterns

open Exact (real)

structure Start (α : Type) where
  window : Window α
  behavior : Behavior α
  offset : α
  /-- How many more behaviors the chain may complete in the window. -/
  left : Nat

section Outcomes

variable {ε T U V : Type}

theorem map_bind (x : Except ε T) (f : T → Except ε U) (g : U → V) :
    (x >>= f).map g = x >>= fun value => (f value).map g := by
  cases x <;> rfl

theorem map_map (x : Except ε T) (f : T → U) (g : U → V) :
    (x.map f).map g = x.map fun value => g (f value) := by
  cases x <;> rfl

end Outcomes

section Noting

variable {α : Type} [Scalar α]

namespace Chain

def runNoting (timing : Timing α) (w : Window α) (stop : α) :
    Nat → α → Chain α → Stage α → Except (Fault α) (List (Start α) × Reply α)
  | 0, _, c, stage =>
      .ok ([], c.reply timing (c.current.map Awake.behavior) (timing.verdict w) stage)
  | steps + 1, now, c, stage =>
      match c.current with
      | none => .ok ([], c.reply timing none (w.stop - now) stage)
      | some child => do
          let answer ← child.update (childWindow now stop c.offset c.fresh) stage
          if answer.leftover < 0 then
            pure ([], { c with fresh := false }.reply timing answer.behavior (timing.verdict w)
              answer.stage)
          else
            let now := Scalar.max (stop - answer.leftover) now
            let (next, feed, rng) ← c.feed.next answer.stage.rng
            let stage := { answer.stage with rng }
            let c : Chain α := ⟨feed, next, now, true⟩
            match next with
            | none => pure ([], c.reply timing none (w.stop - now) stage)
            | some child =>
                let start : Start α := ⟨w, child.behavior, now, steps⟩
                if stop ≤ now then
                  pure ([start], c.reply timing child.behavior (timing.verdict w) stage)
                else
                  (runNoting timing w stop steps now c stage).map fun (starts, reply) =>
                    (start :: starts, reply)

def updateNoting (timing : Timing α) (c : Chain α) (w : Window α) (stage : Stage α) :
    Except (Fault α) (List (Start α) × Reply α) := do
  let (first, timing) ← timing.enter w
  let stop := w.stopWithin timing.lifespan
  if first then
    let (current, feed, rng) ← c.feed.next stage.rng
    let taken := current.toList.map fun b => ⟨w, b.behavior, 0, stepLimit⟩
    (runNoting timing w stop stepLimit w.start ⟨feed, current, 0, true⟩ { stage with rng }).map
      fun (starts, reply) => (taken ++ starts, reply)
  else runNoting timing w stop stepLimit w.start c stage

variable {timing : Timing α} {w : Window α} {stop : α}

section Turns

/-! One turn after the other, each from the answer of the current behavior. -/

variable {steps : Nat} {now offset : α} {feed after : Feed α} {child next : Awake α} {fresh : Bool}
  {stage : Stage α} {answer : Reply α} {rng : Rng}

theorem runNoting_waits
    (ha : child.update (childWindow now stop offset fresh) stage = .ok answer)
    (hn : answer.leftover < 0) :
    runNoting timing w stop (steps + 1) now ⟨feed, some child, offset, fresh⟩ stage =
      .ok ([], ⟨timing.verdict w, .chain timing feed.toSupply (some answer.behavior) offset false,
        answer.stage⟩) := by
  refine bind_eq_ok.2 ⟨answer, ha, ?_⟩
  rw [if_pos hn]
  rfl

theorem runNoting_ends
    (ha : child.update (childWindow now stop offset fresh) stage = .ok answer)
    (hn : ¬answer.leftover < 0) (hnext : feed.next answer.stage.rng = .ok (none, after, rng)) :
    let time := Scalar.max (stop - answer.leftover) now
    runNoting timing w stop (steps + 1) now ⟨feed, some child, offset, fresh⟩ stage =
      .ok ([], ⟨w.stop - time, .chain timing after.toSupply none time true,
        { answer.stage with rng }⟩) := by
  refine bind_eq_ok.2 ⟨answer, ha, ?_⟩
  rw [if_neg hn]
  exact bind_eq_ok.2 ⟨_, hnext, rfl⟩

theorem runNoting_defers
    (ha : child.update (childWindow now stop offset fresh) stage = .ok answer)
    (hn : ¬answer.leftover < 0)
    (hnext : feed.next answer.stage.rng = .ok (some next, after, rng))
    (hs : stop ≤ Scalar.max (stop - answer.leftover) now) :
    let time := Scalar.max (stop - answer.leftover) now
    runNoting timing w stop (steps + 1) now ⟨feed, some child, offset, fresh⟩ stage =
      .ok ([⟨w, next.behavior, time, steps⟩], ⟨timing.verdict w,
        .chain timing after.toSupply (some next.behavior) time true,
        { answer.stage with rng }⟩) := by
  refine bind_eq_ok.2 ⟨answer, ha, ?_⟩
  rw [if_neg hn]
  exact bind_eq_ok.2 ⟨_, hnext, if_pos hs⟩

theorem runNoting_turns
    (ha : child.update (childWindow now stop offset fresh) stage = .ok answer)
    (hn : ¬answer.leftover < 0)
    (hnext : feed.next answer.stage.rng = .ok (some next, after, rng))
    (hs : ¬stop ≤ Scalar.max (stop - answer.leftover) now) :
    let time := Scalar.max (stop - answer.leftover) now
    runNoting timing w stop (steps + 1) now ⟨feed, some child, offset, fresh⟩ stage =
      (runNoting timing w stop steps time ⟨after, some next, time, true⟩
        { answer.stage with rng }).map fun (starts, reply) =>
          (⟨w, next.behavior, time, steps⟩ :: starts, reply) := by
  show (child.update (childWindow now stop offset fresh) stage >>= _) = _
  rw [ha]
  show (if _ then _ else _) = _
  rw [if_neg hn]
  show (feed.next answer.stage.rng >>= _) = _
  rw [hnext]
  exact if_neg hs

end Turns

theorem map_runNoting (steps : Nat) : ∀ (now : α) (c : Chain α) (stage : Stage α),
    (runNoting timing w stop steps now c stage).map Prod.snd =
      run timing w stop steps now c stage := by
  induction steps with
  | zero => exact fun _ _ _ => rfl
  | succ steps ih =>
    rintro now ⟨feed, current, offset, fresh⟩ stage
    cases current with
    | none => rfl
    | some child =>
      refine (map_bind _ _ _).trans (bind_congr fun answer => ?_)
      by_cases negative : answer.leftover < 0
      · simp only [if_pos negative]
        rfl
      · simp only [if_neg negative]
        refine (map_bind _ _ _).trans (bind_congr fun taken => ?_)
        obtain ⟨next, after, rng⟩ := taken
        cases next with
        | none => rfl
        | some next =>
          by_cases hs : stop ≤ Scalar.max (stop - answer.leftover) now
          · simp only [if_pos hs]
            rfl
          · simp only [if_neg hs, ← ih]
            exact map_map _ _ _

theorem map_updateNoting (c : Chain α) (stage : Stage α) :
    (updateNoting timing c w stage).map Prod.snd = update timing c w stage := by
  refine (map_bind _ _ _).trans (bind_congr fun clock => ?_)
  obtain ⟨first, entered⟩ := clock
  cases first with
  | false => exact map_runNoting _ _ _ _
  | true =>
    refine (map_bind _ _ _).trans (bind_congr fun taken => ?_)
    obtain ⟨current, feed, rng⟩ := taken
    simp only [← map_runNoting]
    exact map_map _ _ _

end Chain

namespace Behavior

def updateNoting (b : Behavior α) (w : Window α) (stage : Stage α) :
    Except (Fault α) (List (Start α) × Reply α) :=
  match b with
  | chain timing supply current offset fresh =>
      Chain.updateNoting timing (.wakeBy update supply current offset fresh) w stage
  | b => (b.update w stage).map fun reply => ([], reply)

theorem map_updateNoting (b : Behavior α) (w : Window α) (stage : Stage α) :
    (b.updateNoting w stage).map Prod.snd = b.update w stage := by
  have silent : ∀ x : Except (Fault α) (Reply α),
      (x.map fun reply => (([] : List (Start α)), reply)).map Prod.snd = x := by
    intro x
    cases x <;> rfl
  cases b with
  | chain timing supply current offset fresh =>
    rw [update_chain]
    exact Chain.map_updateNoting _ _
  | _ => exact silent _

def starts (b : Behavior α) : List (Window α × Stage α) → Except (Fault α) (List (Start α))
  | [] => .ok []
  | (w, stage) :: rest => do
      let (now, reply) ← b.updateNoting w stage
      let later ← reply.behavior.starts rest
      pure (now ++ later)

theorem exists_across (runs : List (Window α × Stage α)) :
    ∀ {b : Behavior α} {log : List (Start α)}, b.starts runs = .ok log →
    ∃ replies, b.across runs = .ok replies := by
  induction runs with
  | nil => exact fun _ => ⟨[], rfl⟩
  | cons run rest ih =>
    intro b log h
    obtain ⟨⟨now, reply⟩, updated, h⟩ := bind_eq_ok.1 h
    obtain ⟨later, hlater, _⟩ := bind_eq_ok.1 h
    obtain ⟨replies, hr⟩ := ih hlater
    have answered : b.update run.1 run.2 = .ok reply := by
      rw [← b.map_updateNoting, updated]
      rfl
    exact ⟨_, bind_eq_ok.2 ⟨_, answered, bind_eq_ok.2 ⟨_, hr, rfl⟩⟩⟩

end Behavior

end Noting

/-- From one start to the next, for behaviors of given durations: the second one is where the
first one ends, or at the start of the window if that is later. It is later only if the window
before left the chain at the limit. -/
def Start.Leads (δ : Behavior Exact → ℝ) (u v : Start Exact) : Prop :=
  v.offset = u.offset + real (δ u.behavior) ∨
    (u.left = 0 ∧ u.offset + real (δ u.behavior) < v.window.start ∧ v.offset = v.window.start)

structure Supply.Paced (δ : Behavior Exact → ℝ) (s : Supply Exact) : Prop where
  total : s.Total
  lasts : ∀ b, s.Gives b → Lasts b (δ b)

theorem Supply.Paced.left {δ : Behavior Exact → ℝ} {s after : Supply Exact} {r rng : Rng}
    {b : Option (Behavior Exact)} (h : s.Paced δ) (hn : s.next r = .ok (b, after, rng)) :
    after.Paced δ := by
  obtain ⟨_, left, total⟩ := Supply.next_eq_ok hn
  exact ⟨total h.total, fun b hb => h.lasts b (left b hb)⟩

inductive Tracked (δ : Behavior Exact → ℝ) (now : ℝ) (u : Start Exact) : Behavior Exact → Prop
  | new {t : Timing Exact} {supply : Supply Exact} {current : Option (Behavior Exact)}
      {offset : Exact} {fresh : Bool} : t.lastStop = none → t.lifespan = Scalar.infinity →
      supply.Paced δ → now = 0 → u.offset + real (δ u.behavior) = real 0 →
      Tracked δ now u (.chain t supply current offset fresh)
  | ended {t : Timing Exact} {supply : Supply Exact} {offset : Exact} {fresh : Bool} :
      t.Endless now → Tracked δ now u (.chain t supply none offset fresh)
  | going {t : Timing Exact} {supply : Supply Exact} {child : Behavior Exact} {offset d : ℝ}
      {fresh : Bool} : t.Endless now → supply.Paced δ →
      Due (childStart now offset fresh) child d → (fresh = true → offset ≤ now) →
      u.offset + real (δ u.behavior) = real (offset + d) → (now ≤ offset + d ∨ u.left = 0) →
      Tracked δ now u (.chain t supply (some child) (real offset) fresh)

/-- Links behind the last one of a chain make it longer. -/
theorem isChain_onward {T : Type} {R : T → T → Prop} {m : List T} : ∀ {l : List T} {u : T},
    (u :: l).IsChain R → (l.getLastD u :: m).IsChain R → (u :: (l ++ m)).IsChain R
  | [], _, _, more => more
  | v :: l, u, chain, more => by
      obtain ⟨link, chain⟩ := List.isChain_cons_cons.1 chain
      rw [List.getLastD_cons] at more
      exact List.isChain_cons_cons.2 ⟨link, isChain_onward chain more⟩

section Pace

variable {δ : Behavior Exact → ℝ} {t : Timing Exact} {start stop : ℝ}

theorem Supply.next_feed {s after : Supply Exact} {r rng : Rng} {b : Option (Behavior Exact)}
    (h : s.next r = .ok (b, after, rng)) : (s.wakeBy Behavior.update).next r =
      .ok (b.map fun b => ⟨b, b.update⟩, after.wakeBy Behavior.update, rng) := by
  rw [next_wakeBy, h]
  rfl

/-- The turn that comes when a behavior ends, be it before the chain gets there. -/
theorem Start.leads_turn {u v : Start Exact} {now d : ℝ}
    (ends : u.offset + real (δ u.behavior) = real d) (window : v.window.start = real start)
    (behind : now ≤ d ∨ (u.left = 0 ∧ now = start)) (offset : v.offset = real (max d now)) :
    u.Leads δ v := by
  by_cases later : now ≤ d
  · left
    rw [ends, offset, max_eq_left later]
  · obtain ⟨spent, rfl⟩ := behind.resolve_left later
    have later := lt_of_not_ge later
    right
    rw [ends, window, offset, max_eq_right later.le]
    exact ⟨spent, later, rfl⟩

theorem Chain.exists_starts (ht : t.Endless stop) (steps : Nat) : ∀ (stage : Stage Exact)
    {now offset d : ℝ} {supply : Supply Exact} {child : Behavior Exact} {fresh : Bool}
    {u : Start Exact}, now ≤ stop → supply.Paced δ → Due (childStart now offset fresh) child d →
    (fresh = true → offset ≤ now) → u.offset + real (δ u.behavior) = real (offset + d) →
    (now ≤ offset + d ∨ (u.left = 0 ∧ now = start)) → (steps = 0 → fresh = true ∧ u.left = 0) →
    ∃ starts reply, runNoting t ⟨real start, real stop⟩ (real stop) steps (real now)
      (.wakeBy Behavior.update supply (some child) (real offset) fresh) stage =
        .ok (starts, reply) ∧
      (u :: starts).IsChain (Start.Leads δ) ∧
      Tracked δ stop (starts.getLastD u) reply.behavior := by
  induction steps with
  | zero =>
    intro stage now offset d supply child fresh u hn paced due late ends _ spent
    obtain ⟨rfl, none⟩ := spent rfl
    refine ⟨[], _, rfl, .singleton u, ?_⟩
    simp only [reply, wakeBy, Supply.toSupply_wakeBy]
    exact .going ht paced due (fun _ => (late rfl).trans hn) ends (.inr none)
  | succ steps ih =>
    intro stage now offset d supply child fresh u hn paced due late ends behind _
    have begin : childStart now offset fresh ≤ stop - offset := by
      cases fresh with
      | true => exact sub_nonneg.2 ((late rfl).trans hn)
      | false => exact sub_le_sub_right hn offset
    obtain ⟨answer, ha, settled⟩ := due.keeps (stop - offset) begin stage
    rw [← childWindow_real] at ha
    obtain ⟨negative, later, due'⟩ | ⟨done, hr⟩ := settled
    · refine ⟨[], _, runNoting_waits ha negative, .singleton u, ?_⟩
      rw [Supply.toSupply_wakeBy]
      exact .going ht paced due' (fun hf => by cases hf) ends (.inl (by linarith))
    · have complete : ¬answer.leftover < 0 := by
        rw [hr]
        simpa using done
      have time : Scalar.max (real stop - answer.leftover) (real now) =
          real (max (offset + d) now) := by
        have e : stop - (stop - offset - d) = offset + d := by ring
        rw [hr, Exact.real_sub_real, Exact.max_real, e]
      have within : max (offset + d) now ≤ stop := max_le (by linarith) hn
      obtain ⟨⟨taken, after, rng⟩, hnext⟩ := paced.total.next answer.stage.rng
      have paced' := paced.left hnext
      obtain ⟨given, _, _⟩ := Supply.next_eq_ok hnext
      have hnext := Supply.next_feed hnext
      cases taken with
      | none =>
        exact ⟨[], _, runNoting_ends ha complete hnext, .singleton u, .ended ht⟩
      | some b =>
        have new := (paced.lasts b (given b rfl)).due
        let v : Start Exact := ⟨⟨real start, real stop⟩, b, real (max (offset + d) now), steps⟩
        have leads : u.Leads δ v := Start.leads_turn ends rfl behind rfl
        have ends' : v.offset + real (δ v.behavior) = real (max (offset + d) now + δ b) := rfl
        have onward : max (offset + d) now ≤ max (offset + d) now + δ b := by linarith [new.le]
        by_cases hs : real stop ≤ Scalar.max (real stop - answer.leftover) (real now)
        · refine ⟨_, _, runNoting_defers ha complete hnext hs, ?_, ?_⟩
          · rw [time]
            exact List.isChain_pair.2 leads
          · rw [time, Exact.real_le_real] at hs
            rw [Supply.toSupply_wakeBy, time]
            exact .going ht paced' new (fun _ => within) ends' (.inl (hs.trans onward))
        · have new' : Due (childStart (max (offset + d) now) (max (offset + d) now) true) b (δ b) :=
            new
          obtain ⟨starts, reply, run, chain, tracked⟩ := ih { answer.stage with rng } within paced'
            new' (fun _ => le_rfl) ends' (.inl onward) fun none => ⟨rfl, none⟩
          refine ⟨v :: starts, reply, (runNoting_turns ha complete hnext hs).trans ?_,
            List.isChain_cons_cons.2 ⟨leads, chain⟩, by rwa [List.getLastD_cons]⟩
          rw [time]
          exact congrArg (Except.map _) run

theorem Chain.updateNoting_running {now : ℝ} (ht : t.Endless now) (hw : now ≤ stop)
    (c : Chain Exact) (stage : Stage Exact) :
    updateNoting t c ⟨real now, real stop⟩ stage =
      runNoting { t with lastStop := some (real stop) } ⟨real now, real stop⟩ (real stop) stepLimit
        (real now) c stage := by
  rw [updateNoting, ht.enter hw]
  show runNoting _ _ (Window.stopWithin _ t.lifespan) _ _ _ _ = _
  rw [Timing.stopWithin_endless ht.lifespan]

theorem Chain.updateNoting_new (hn : t.lastStop = none) (hl : t.lifespan = Scalar.infinity)
    (hw : 0 ≤ stop) {supply after : Supply Exact} {taken : Option (Behavior Exact)} {rng : Rng}
    {stage : Stage Exact} (hnext : supply.next stage.rng = .ok (taken, after, rng))
    (current : Option (Behavior Exact)) (offset : Exact) (fresh : Bool) :
    updateNoting t (.wakeBy Behavior.update supply current offset fresh) ⟨real 0, real stop⟩ stage =
      (runNoting { t with lastStop := some (real stop) } ⟨real 0, real stop⟩ (real stop) stepLimit
        (real 0) (.wakeBy Behavior.update after taken (real 0) true) { stage with rng }).map
        fun (starts, reply) =>
          (taken.toList.map (fun b => ⟨⟨real 0, real stop⟩, b, real 0, stepLimit⟩) ++ starts,
            reply) := by
  rw [updateNoting, Timing.enter_new hn hw]
  simp only [bind, Except.bind, wakeBy, Supply.next_feed hnext, if_true,
    Timing.stopWithin_endless hl, Exact.zero_eq_real]
  cases taken <;> rfl

/-- One window of a chain that is tracked. -/
theorem Tracked.exists_starts {now : ℝ} {u : Start Exact} {b : Behavior Exact}
    (h : Tracked δ now u b) (hw : now ≤ stop) (stage : Stage Exact) :
    ∃ starts reply, b.updateNoting ⟨real now, real stop⟩ stage = .ok (starts, reply) ∧
      (u :: starts).IsChain (Start.Leads δ) ∧
      Tracked δ stop (starts.getLastD u) reply.behavior := by
  cases h with
  | ended ht =>
    exact ⟨[], _, Chain.updateNoting_running ht hw _ stage, .singleton u, .ended ⟨ht.lifespan, rfl⟩⟩
  | @going t _ _ _ _ _ ht paced due late ends behind =>
    have ht' : ({ t with lastStop := some (real stop) } : Timing Exact).Endless stop :=
      ⟨ht.lifespan, rfl⟩
    obtain ⟨starts, reply, run, chain, tracked⟩ := Chain.exists_starts ht' Chain.stepLimit stage hw
      paced due late ends (behind.imp_right fun spent => ⟨spent, rfl⟩) fun none => by cases none
    exact ⟨starts, reply, (Chain.updateNoting_running ht hw _ stage).trans run, chain, tracked⟩
  | @new t supply current offset fresh hn hl paced zero ends =>
    subst zero
    have ht' : ({ t with lastStop := some (real stop) } : Timing Exact).Endless stop := ⟨hl, rfl⟩
    obtain ⟨⟨taken, after, rng⟩, hnext⟩ := paced.total.next stage.rng
    obtain ⟨given, _, _⟩ := Supply.next_eq_ok hnext
    have entered := Chain.updateNoting_new hn hl hw hnext current offset fresh
    cases taken with
    | none => exact ⟨[], _, entered, .singleton u, .ended ht'⟩
    | some b =>
      let v : Start Exact := ⟨⟨real 0, real stop⟩, b, real 0, Chain.stepLimit⟩
      have new : Due (childStart 0 0 true) b (δ b) := (paced.lasts b (given b rfl)).due
      have ends' : v.offset + real (δ v.behavior) = real (0 + δ b) := rfl
      have onward : 0 ≤ 0 + δ b := by linarith [(paced.lasts b (given b rfl)).due.le]
      obtain ⟨starts, reply, run, chain, tracked⟩ := Chain.exists_starts ht' Chain.stepLimit
        { stage with rng } hw (paced.left hnext) new (fun _ => le_rfl) ends' (.inl onward)
        fun none => by cases none
      exact ⟨v :: starts, reply, entered.trans (congrArg (Except.map _) run),
        List.isChain_cons_cons.2 ⟨.inl ends.symm, chain⟩, by rwa [List.getLastD_cons]⟩

theorem Tracked.starts (runs : List (Window Exact × Stage Exact)) : ∀ {now : ℝ} {u : Start Exact}
    {b : Behavior Exact}, Tracked δ now u b → Contiguous now (runs.map Prod.fst) →
    ∃ log, b.starts runs = .ok log ∧ (u :: log).IsChain (Start.Leads δ) := by
  induction runs with
  | nil => exact fun _ _ => ⟨[], rfl, .singleton _⟩
  | cons run rest ih =>
    obtain ⟨w, stage⟩ := run
    rintro now u b tracked ⟨stop, hw, rfl, contiguous⟩
    obtain ⟨starts, reply, updated, chain, tracked⟩ := tracked.exists_starts hw stage
    obtain ⟨later, hlater, chain'⟩ := ih tracked contiguous
    exact ⟨starts ++ later, bind_eq_ok.2 ⟨_, updated, bind_eq_ok.2 ⟨_, hlater, rfl⟩⟩,
      isChain_onward chain chain'⟩

end Pace

namespace Exact

theorem real_le_add {x : ℝ} {a : Exact} (h : real x ≤ a) (y : ℝ) : real (x + y) ≤ a + real y := by
  match a, h with
  | real z, h => exact add_le_add_left (real_le_real.1 h) y
  | .infinite false, _ => rfl

theorem real_le_of_le_of_lt {x : ℝ} {a b : Exact} (h : real x ≤ a) (hb : a < b) : real x ≤ b := by
  match a, b, h, hb with
  | real z, real y, h, hb => exact (real_le_real.1 h).trans (real_lt_real.1 hb).le
  | real _, .infinite false, _, _ => rfl

end Exact

namespace Start

variable {δ : Behavior Exact → ℝ} {u v : Start Exact} {s : ℝ}

theorem Leads.offset (h : u.Leads δ v) (least : real s ≤ u.offset + real (δ u.behavior)) :
    real s ≤ v.offset ∧
      (0 < u.left → u.offset + real (δ u.behavior) = real s → v.offset = real s) := by
  obtain same | ⟨spent, later, same⟩ := h
  · rw [same]
    exact ⟨least, fun _ exactly => exactly⟩
  · rw [same]
    exact ⟨Exact.real_le_of_le_of_lt least later, fun left => absurd spent left.ne'⟩

/-- A chain takes no less time than what it has started took, and no more if it was never left at
the limit. -/
theorem sum_le_offset {behind : List (Start Exact)} (before : List (Start Exact)) :
    ∀ {u : Start Exact} {s : ℝ}, (u :: (before ++ v :: behind)).IsChain (Leads δ) →
    real s ≤ u.offset + real (δ u.behavior) →
    real (s + (before.map fun u => δ u.behavior).sum) ≤ v.offset ∧
      ((∀ w ∈ u :: before, 0 < w.left) → u.offset + real (δ u.behavior) = real s →
        v.offset = real (s + (before.map fun u => δ u.behavior).sum)) := by
  induction before with
  | nil =>
    intro u s chain least
    obtain ⟨leads, _⟩ := List.isChain_cons_cons.1 chain
    rw [List.map_nil, List.sum_nil, add_zero]
    exact ⟨(leads.offset least).1, fun left => (leads.offset least).2 (left u List.mem_cons_self)⟩
  | cons w before ih =>
    intro u s chain least
    obtain ⟨leads, chain⟩ := List.isChain_cons_cons.1 chain
    obtain ⟨least', exactly⟩ := leads.offset least
    obtain ⟨below, same⟩ := ih chain (Exact.real_le_add least' (δ w.behavior))
    rw [List.map_cons, List.sum_cons, ← add_assoc]
    refine ⟨below, fun left ends => same (fun x hx => left x (List.mem_cons_of_mem u hx)) ?_⟩
    rw [exactly (left u List.mem_cons_self) ends]
    rfl

end Start

/-- A chain of behaviors that take some time each, without a lifespan of its own, takes up its
behaviors one right behind the other, whatever the windows and the stages they find: the first one
at 0, and each one where the one before has come to its end. Only the one behind a behavior that
is left over at the limit may start later, at the start of the window in which that one turns out
to be complete. So the start of each behavior is never before the sum of all durations before it,
and it is that sum as long as no window has been left at the limit. -/
theorem started_back_to_back {supply : Supply Exact} {δ : Behavior Exact → ℝ}
    (total : supply.Total) (lasts : ∀ b, supply.Gives b → Lasts b (δ b)) (easing : Easing)
    {runs : List (Window Exact × Stage Exact)} (hw : Contiguous 0 (runs.map Prod.fst)) :
    let chain := (Behavior.ofSupply supply).withTiming ⟨easing, Scalar.infinity, none⟩
    (∃ replies, chain.across runs = .ok replies) ∧
      ∃ log, chain.starts runs = .ok log ∧ log.IsChain (Start.Leads δ) ∧
        ∀ before v behind, log = before ++ v :: behind →
          let sum := (before.map fun u => δ u.behavior).sum
          real sum ≤ v.offset ∧ ((∀ u ∈ before, 0 < u.left) → v.offset = real sum) := by
  intro chain
  -- The chain goes on as from something that has just come to its end.
  let u : Start Exact := ⟨⟨real 0, real 0⟩, .pause, real (-δ .pause), 1⟩
  have ends : u.offset + real (δ u.behavior) = real 0 := by simp [u]
  have least : real 0 ≤ u.offset + real (δ u.behavior) := ends ▸ Exact.real_le_real.2 le_rfl
  have new : Tracked δ 0 u chain := .new rfl rfl ⟨total, lasts⟩ rfl ends
  obtain ⟨log, hlog, links⟩ := new.starts runs hw
  refine ⟨Behavior.exists_across runs hlog, log, hlog, links.tail, fun before v behind here => ?_⟩
  rw [here] at links
  obtain ⟨below, same⟩ := Start.sum_le_offset before links least
  rw [zero_add] at below same
  exact ⟨below, fun left => same (List.forall_mem_cons.2 ⟨Nat.one_pos, left⟩) ends⟩

/-- Half a second, a second and two seconds, in windows that end within the second one and within
the third one. -/
theorem started_back_to_back_pauses :
    let pause (x : ℝ) : Behavior Exact := Behavior.pause.withTiming (.ofLifespan (real x))
    let supply : Supply Exact := .list [pause (1 / 2), pause 1, pause 2]
    let δ (b : Behavior Exact) : ℝ := cap b.timing.lifespan 2
    let stage : Stage Exact := ⟨.initial, .ofSeed 1, #[]⟩
    let runs : List (Window Exact × Stage Exact) :=
      [(⟨real 0, real 1⟩, stage), (⟨real 1, real 3⟩, stage)]
    supply.Total ∧ (∀ b, supply.Gives b → Lasts b (δ b)) ∧ Contiguous 0 (runs.map Prod.fst) ∧
      ∃ log, ((Behavior.ofSupply supply).withTiming .unbounded).starts runs = .ok log ∧
        ∀ before v behind, log = before ++ v :: behind →
          real (before.map fun u => δ u.behavior).sum ≤ v.offset := by
  intro pause supply δ stage runs
  have total : supply.Total := trivial
  have lasts : ∀ b, supply.Gives b → Lasts b (δ b) := by
    have each : ∀ x : ℝ, 0 ≤ x → x ≤ 2 → Lasts (pause x) (δ (pause x)) := by
      intro x h0 h2
      have e : δ (pause x) = x := cap_eq_left h2
      rw [e]
      exact .effect rfl rfl h0
    show ∀ b ∈ [pause (1 / 2), pause 1, pause 2], Lasts b (δ b)
    simp only [List.mem_cons, List.not_mem_nil, or_false, forall_eq_or_imp, forall_eq]
    exact ⟨each _ (by norm_num) (by norm_num), each _ (by norm_num) (by norm_num),
      each _ (by norm_num) le_rfl⟩
  have contiguous : Contiguous 0 (runs.map Prod.fst) :=
    ⟨1, by norm_num, rfl, 3, by norm_num, rfl, trivial⟩
  obtain ⟨_, log, hlog, _, each⟩ := started_back_to_back total lasts .linear contiguous
  exact ⟨total, lasts, contiguous, log, hlog, fun before v behind here =>
    (each before v behind here).1⟩

section Limit

variable {d : ℝ} {t : Timing Exact} {w : Window Exact} {now stop : ℝ}

/-- A pause that is complete in its first window. -/
theorem Behavior.update_pause (hd : 0 ≤ d) (hs : d ≤ stop) (stage : Stage Exact) :
    ∃ b, (Behavior.pause.withTiming (.ofLifespan (real d))).update ⟨real 0, real stop⟩ stage =
      .ok ⟨real (stop - d), b, stage⟩ := by
  have awaits : (Timing.ofLifespan (real d)).Awaits 0 := .inl ⟨rfl, rfl⟩
  have verdict : (Timing.ofLifespan (real d)).verdict ⟨real 0, real stop⟩ = real (stop - d) := by
    simp [Timing.verdict, Timing.ofLifespan, hs, hd]
  have updated := awaits.update_pause (hd.trans hs) stage
  rw [verdict] at updated
  exact ⟨_, updated⟩

/-- From one pause to the next one, well before the end of the window. -/
theorem Chain.runNoting_pauses {pause : Behavior Exact} {offset : ℝ}
    (hp : pause = Behavior.pause.withTiming (.ofLifespan (real d))) (hd : 0 ≤ d)
    (early : max (offset + d) now < stop) (steps : Nat) (rest : List (Behavior Exact))
    (stage : Stage Exact) :
    runNoting t w (real stop) (steps + 1) (real now) (.wakeBy Behavior.update
        (.list (pause :: rest)) (some pause) (real offset) true) stage =
      (runNoting t w (real stop) steps (real (max (offset + d) now)) (.wakeBy Behavior.update
        (.list rest) (some pause) (real (max (offset + d) now)) true) stage).map
        fun (starts, reply) =>
          (⟨w, pause, real (max (offset + d) now), steps⟩ :: starts, reply) := by
  have within : d ≤ stop - offset := by linarith [(le_max_left (offset + d) now).trans_lt early]
  obtain ⟨b, hb⟩ := Behavior.update_pause hd within stage
  rw [← hp] at hb
  have time : Scalar.max (real stop - real (stop - offset - d)) (real now) =
      real (max (offset + d) now) := by
    have e : stop - (stop - offset - d) = offset + d := by ring
    rw [Exact.real_sub_real, Exact.max_real, e]
  have ha : pause.update (childWindow (real now) (real stop) (real offset) true) stage =
      .ok ⟨real (stop - offset - d), b, stage⟩ := by
    rw [childWindow_real]
    exact hb
  have hnext : (Supply.wakeBy Behavior.update (.list (pause :: rest))).next stage.rng =
      .ok (some ⟨pause, pause.update⟩, Supply.wakeBy Behavior.update (.list rest), stage.rng) := rfl
  refine (runNoting_turns ha (by simpa using within) hnext ?_).trans ?_
  · rw [time, Exact.real_le_real]
    exact not_le_of_gt early
  · rw [time]
    rfl

theorem Chain.exists_last_pause {pause : Behavior Exact}
    (hp : pause = Behavior.pause.withTiming (.ofLifespan (real d))) (hd : 0 ≤ d)
    (within : d ≤ stop - now) (steps : Nat) (stage : Stage Exact) :
    ∃ reply, runNoting t w (real stop) (steps + 1) (real now) (.wakeBy Behavior.update (.list [])
      (some pause) (real now) true) stage = .ok ([], reply) := by
  obtain ⟨b, hb⟩ := Behavior.update_pause hd within stage
  rw [← hp] at hb
  have ha : pause.update (childWindow (real now) (real stop) (real now) true) stage =
      .ok ⟨real (stop - now - d), b, stage⟩ := by
    rw [childWindow_real]
    exact hb
  exact ⟨_, runNoting_ends ha (by simpa using within) rfl⟩

/-- As many pauses as the limit allows are complete before the window is over. -/
theorem Chain.exists_spent {pause : Behavior Exact}
    (hp : pause = Behavior.pause.withTiming (.ofLifespan (real d))) (hd : 0 ≤ d) (m : Nat)
    (stage : Stage Exact) (steps : Nat) : ∀ {now : ℝ}, now + steps * d < stop →
    ∃ starts : List (Start Exact), starts.length = steps ∧ (∀ u ∈ starts, u.behavior = pause) ∧
      runNoting t w (real stop) steps (real now) (.wakeBy Behavior.update
        (.list (List.replicate (m + steps) pause)) (some pause) (real now) true) stage =
      .ok (starts, ⟨t.verdict w, .chain t (.list (List.replicate m pause)) (some pause)
        (real (now + steps * d)) true, stage⟩) := by
  induction steps with
  | zero =>
    intro now _
    refine ⟨[], rfl, by simp, ?_⟩
    simp [runNoting, reply, wakeBy]
  | succ steps ih =>
    intro now early
    have total : now + (steps + 1 : ℕ) * d = now + d + steps * d := by
      push_cast
      ring
    have rest : (0 : ℝ) ≤ steps * d := mul_nonneg steps.cast_nonneg hd
    rw [total] at early ⊢
    have next : max (now + d) now = now + d := max_eq_left (by linarith)
    obtain ⟨starts, length, same, run⟩ := ih early
    refine ⟨⟨w, pause, real (now + d), steps⟩ :: starts, by simp [length],
      List.forall_mem_cons.2 ⟨rfl, same⟩, ?_⟩
    have early' : max (now + d) now < stop := by
      rw [next]
      linarith
    have turned := runNoting_pauses (t := t) (w := w) hp hd early' steps
      (List.replicate (m + steps) pause) stage
    rw [next] at turned
    exact turned.trans (congrArg (Except.map _) run)

end Limit

/-- A hundred and two pauses of a part in 128 each: a hundred of them are complete in the first of
two windows, and the next one is complete long before the second window. The last one starts with
that window. -/
theorem chain_falls_behind :
    let d : ℝ := 1 / 128
    let pause : Behavior Exact := Behavior.pause.withTiming (.ofLifespan (real d))
    let stage : Stage Exact := ⟨.initial, .ofSeed 1, #[]⟩
    let runs : List (Window Exact × Stage Exact) :=
      [(⟨real 0, real 1⟩, stage), (⟨real 1, real 2⟩, stage)]
    Lasts pause d ∧ Contiguous 0 (runs.map Prod.fst) ∧ ∃ before v,
      (Behavior.sequence (List.replicate 102 pause)).starts runs = .ok (before ++ [v]) ∧
      before.length = 101 ∧ (∀ u ∈ before, u.behavior = pause) ∧ v.offset = real 1 ∧
      v.offset ≠ real (before.map fun _ => d).sum := by
  intro d pause stage runs
  have contiguous : Contiguous 0 (runs.map Prod.fst) :=
    ⟨1, by norm_num, rfl, 2, by norm_num, rfl, trivial⟩
  have hd : 0 ≤ d := by norm_num [d]
  have lasts : Lasts pause d := .effect rfl rfl hd
  have early : 0 + (100 : ℕ) * d < 1 := by norm_num [d]
  have clamped : max (0 + (100 : ℕ) * d + d) 1 = 1 := max_eq_right (by norm_num [d])
  -- The first window leaves one more pause to be started, and one that is over before the next.
  obtain ⟨starts, length, same, spent⟩ := Chain.exists_spent
    (t := ⟨.linear, Scalar.infinity, some (real 1)⟩) (w := ⟨real 0, real 1⟩) (rfl : pause = _) hd 1
    stage 100 early
  have first := (Chain.updateNoting_new (t := .unbounded) rfl rfl zero_le_one
    (rfl : (Supply.list (List.replicate 102 pause)).next stage.rng = _) none 0 true).trans
      (congrArg (Except.map _) spent)
  -- That pause ends where the second window starts.
  have again : (⟨.linear, Scalar.infinity, some (real 1)⟩ : Timing Exact).Endless 1 := ⟨rfl, rfl⟩
  have turned := Chain.runNoting_pauses (t := ⟨.linear, Scalar.infinity, some (real 2)⟩)
    (w := ⟨real 1, real 2⟩) (rfl : pause = _) hd (clamped ▸ one_lt_two) 99 [] stage
  rw [clamped] at turned
  obtain ⟨reply, last⟩ := Chain.exists_last_pause
    (t := ⟨.linear, Scalar.infinity, some (real 2)⟩) (w := ⟨real 1, real 2⟩) (rfl : pause = _) hd
    (by norm_num [d] : d ≤ 2 - 1) 98 stage
  have second := (Chain.updateNoting_running again one_le_two _ stage).trans
    (turned.trans (congrArg (Except.map _) last))
  let u : Start Exact := ⟨⟨real 0, real 1⟩, pause, real 0, 100⟩
  let v : Start Exact := ⟨⟨real 1, real 2⟩, pause, real 1, 99⟩
  have started : (Behavior.sequence (List.replicate 102 pause)).starts runs =
      .ok ((u :: starts) ++ [v]) :=
    bind_eq_ok.2 ⟨_, first, bind_eq_ok.2 ⟨[v], bind_eq_ok.2 ⟨_, second,
      bind_eq_ok.2 ⟨[], rfl, rfl⟩⟩, rfl⟩⟩
  have count : (u :: starts).length = 101 := by rw [List.length_cons, length]
  have sum : ((u :: starts).map fun _ => d).sum = 101 * (1 / 128) := by
    rw [List.map_const', List.sum_replicate, count, nsmul_eq_mul]
    norm_num [d]
  refine ⟨lasts, contiguous, u :: starts, v, started, count, List.forall_mem_cons.2 ⟨rfl, same⟩,
    rfl, fun same => ?_⟩
  have one : (1 : ℝ) = 101 * (1 / 128) := sum ▸ Exact.real.inj same
  norm_num at one

end ParticlePatterns
