import ParticlePatterns.Proofs.Behavior.Parts

/-!
# The course of a window

What can happen in one window of a chain or of branches, case by case and with the parts
at rest. A run without a fault is a course, and every course is one.
-/

set_option autoImplicit false

namespace ParticlePatterns

variable {α : Type} [Scalar α]

namespace Chain

def childWindow (now stop offset : α) (fresh : Bool) : Window α :=
  ⟨if fresh then 0 else now - offset, stop - offset⟩

section

variable (update : Behavior α → Update α) (timing : Timing α) (w : Window α) (stop : α)

/-- The turns of a chain from the time `now` on, at most as many as its first argument. -/
inductive Course : Nat → α → Supply α → Option (Behavior α) → α → Bool → Stage α →
    Reply α → Prop
  | spent {now : α} {supply : Supply α} {current : Option (Behavior α)} {offset : α}
      {fresh : Bool} {stage : Stage α} :
      Course 0 now supply current offset fresh stage
        ⟨timing.verdict w, .chain timing supply current offset fresh, stage⟩
  | idle {steps : Nat} {now : α} {supply : Supply α} {offset : α} {fresh : Bool}
      {stage : Stage α} :
      Course (steps + 1) now supply none offset fresh stage
        ⟨w.stop - now, .chain timing supply none offset fresh, stage⟩
  | waits {steps : Nat} {now : α} {supply : Supply α} {child : Behavior α} {offset : α}
      {fresh : Bool} {stage : Stage α} {answer : Reply α} :
      update child (childWindow now stop offset fresh) stage = .ok answer →
      answer.leftover < 0 →
      Course (steps + 1) now supply (some child) offset fresh stage
        ⟨timing.verdict w, .chain timing supply (some answer.behavior) offset false, answer.stage⟩
  | ends {steps : Nat} {now : α} {supply after : Supply α} {child : Behavior α} {offset : α}
      {fresh : Bool} {stage : Stage α} {answer : Reply α} {rng : Rng} :
      update child (childWindow now stop offset fresh) stage = .ok answer →
      ¬answer.leftover < 0 →
      supply.next answer.stage.rng = .ok (none, after, rng) →
      Course (steps + 1) now supply (some child) offset fresh stage
        ⟨w.stop - Scalar.max (stop - answer.leftover) now,
          .chain timing after none (Scalar.max (stop - answer.leftover) now) true,
          { answer.stage with rng }⟩
  | defers {steps : Nat} {now : α} {supply after : Supply α} {child next : Behavior α}
      {offset : α} {fresh : Bool} {stage : Stage α} {answer : Reply α} {rng : Rng} :
      update child (childWindow now stop offset fresh) stage = .ok answer →
      ¬answer.leftover < 0 →
      supply.next answer.stage.rng = .ok (some next, after, rng) →
      stop ≤ Scalar.max (stop - answer.leftover) now →
      Course (steps + 1) now supply (some child) offset fresh stage
        ⟨timing.verdict w,
          .chain timing after (some next) (Scalar.max (stop - answer.leftover) now) true,
          { answer.stage with rng }⟩
  | turns {steps : Nat} {now : α} {supply after : Supply α} {child next : Behavior α}
      {offset : α} {fresh : Bool} {stage : Stage α} {answer reply : Reply α} {rng : Rng} :
      update child (childWindow now stop offset fresh) stage = .ok answer →
      ¬answer.leftover < 0 →
      supply.next answer.stage.rng = .ok (some next, after, rng) →
      ¬stop ≤ Scalar.max (stop - answer.leftover) now →
      Course steps (Scalar.max (stop - answer.leftover) now) after (some next)
        (Scalar.max (stop - answer.leftover) now) true { answer.stage with rng } reply →
      Course (steps + 1) now supply (some child) offset fresh stage reply

inductive After (steps : Nat) (now : α) (supply : Supply α) (offset : α) (answer : Reply α) :
    Reply α → Prop
  | waits : answer.leftover < 0 → After steps now supply offset answer
      ⟨timing.verdict w, .chain timing supply (some answer.behavior) offset false, answer.stage⟩
  | ends {after : Supply α} {rng : Rng} : ¬answer.leftover < 0 →
      supply.next answer.stage.rng = .ok (none, after, rng) →
      After steps now supply offset answer
        ⟨w.stop - Scalar.max (stop - answer.leftover) now,
          .chain timing after none (Scalar.max (stop - answer.leftover) now) true,
          { answer.stage with rng }⟩
  | defers {after : Supply α} {next : Behavior α} {rng : Rng} : ¬answer.leftover < 0 →
      supply.next answer.stage.rng = .ok (some next, after, rng) →
      stop ≤ Scalar.max (stop - answer.leftover) now →
      After steps now supply offset answer
        ⟨timing.verdict w,
          .chain timing after (some next) (Scalar.max (stop - answer.leftover) now) true,
          { answer.stage with rng }⟩
  | turns {after : Supply α} {next : Behavior α} {rng : Rng} {reply : Reply α} :
      ¬answer.leftover < 0 → supply.next answer.stage.rng = .ok (some next, after, rng) →
      ¬stop ≤ Scalar.max (stop - answer.leftover) now →
      Course update timing w stop steps (Scalar.max (stop - answer.leftover) now) after (some next)
        (Scalar.max (stop - answer.leftover) now) true { answer.stage with rng } reply →
      After steps now supply offset answer reply

end

variable {update : Behavior α → Update α} {timing : Timing α} {w : Window α} {stop : α}

theorem course_succ_iff {steps : Nat} {now : α} {supply : Supply α} {child : Behavior α}
    {offset : α} {fresh : Bool} {stage : Stage α} {reply : Reply α} :
    Course update timing w stop (steps + 1) now supply (some child) offset fresh stage reply ↔
      ∃ answer, update child (childWindow now stop offset fresh) stage = .ok answer ∧
        After update timing w stop steps now supply offset answer reply := by
  constructor
  · intro h
    cases h with
    | waits ha hn => exact ⟨_, ha, .waits hn⟩
    | ends ha hn hnext => exact ⟨_, ha, .ends hn hnext⟩
    | defers ha hn hnext hd => exact ⟨_, ha, .defers hn hnext hd⟩
    | turns ha hn hnext hd course => exact ⟨_, ha, .turns hn hnext hd course⟩
  · rintro ⟨answer, ha, h⟩
    cases h with
    | waits hn => exact .waits ha hn
    | ends hn hnext => exact .ends ha hn hnext
    | defers hn hnext hd => exact .defers ha hn hnext hd
    | turns hn hnext hd course => exact .turns ha hn hnext hd course

theorem course_of_run (steps : Nat) : ∀ {now : α} {supply : Supply α}
    {current : Option (Behavior α)} {offset : α} {fresh : Bool} {stage : Stage α}
    {reply : Reply α},
    run timing w stop steps now (.wakeBy update supply current offset fresh) stage = .ok reply →
    Course update timing w stop steps now supply current offset fresh stage reply := by
  induction steps with
  | zero =>
    intro now supply current offset fresh stage reply h
    have e : reply = ⟨timing.verdict w, .chain timing supply current offset fresh, stage⟩ := by
      cases current <;> simpa [run, wakeBy, Chain.reply] using h.symm
    rw [e]
    exact .spent
  | succ steps ih =>
    intro now supply current offset fresh stage reply h
    cases current with
    | none =>
      have e : reply = ⟨w.stop - now, .chain timing supply none offset fresh, stage⟩ := by
        simpa [run, wakeBy, Chain.reply] using h.symm
      rw [e]
      exact .idle
    | some child =>
      obtain ⟨answer, ha, h⟩ := bind_eq_ok.1 h
      by_cases hn : answer.leftover < 0
      · rw [if_pos hn] at h
        cases h
        simp only [wakeBy, Chain.reply, Supply.toSupply_wakeBy]
        exact .waits ha hn
      · rw [if_neg hn] at h
        obtain ⟨⟨next, feed, rng⟩, hf, h⟩ := bind_eq_ok.1 h
        have hm := (Supply.next_wakeBy _ _).symm.trans hf
        obtain ⟨⟨b, after, rng⟩, hnext, he⟩ := map_eq_ok.1 hm
        cases he
        cases b with
        | none =>
          cases h
          simp only [Chain.reply, Supply.toSupply_wakeBy]
          exact .ends ha hn hnext
        | some b =>
          by_cases hs : stop ≤ Scalar.max (stop - answer.leftover) now
          · simp only [Option.map_some, if_pos hs] at h
            cases h
            simp only [Chain.reply, Supply.toSupply_wakeBy]
            exact .defers ha hn hnext hs
          · simp only [Option.map_some, if_neg hs] at h
            exact .turns ha hn hnext hs (ih h)

theorem Course.run_eq_ok {steps : Nat} {now : α} {supply : Supply α}
    {current : Option (Behavior α)} {offset : α} {fresh : Bool} {stage : Stage α}
    {reply : Reply α}
    (h : Course update timing w stop steps now supply current offset fresh stage reply) :
    run timing w stop steps now (.wakeBy update supply current offset fresh) stage = .ok reply := by
  have taken : ∀ {b : Option (Behavior α)} {supply after : Supply α} {r rng : Rng},
      supply.next r = .ok (b, after, rng) → (supply.wakeBy update).next r =
        .ok (b.map fun b => ⟨b, update b⟩, after.wakeBy update, rng) := by
    intro b supply after r rng hnext
    rw [Supply.next_wakeBy, hnext]
    rfl
  induction h with
  | @spent now supply current offset fresh stage =>
    cases current <;> simp [run, wakeBy, Chain.reply]
  | idle => simp [run, wakeBy, Chain.reply]
  | waits ha hn =>
    refine bind_eq_ok.2 ⟨_, ha, ?_⟩
    rw [if_pos hn]
    simp [wakeBy, Chain.reply, pure, Except.pure]
  | ends ha hn hnext =>
    refine bind_eq_ok.2 ⟨_, ha, ?_⟩
    rw [if_neg hn]
    refine bind_eq_ok.2 ⟨_, taken hnext, ?_⟩
    simp [Chain.reply, pure, Except.pure]
  | defers ha hn hnext hs =>
    refine bind_eq_ok.2 ⟨_, ha, ?_⟩
    rw [if_neg hn]
    refine bind_eq_ok.2 ⟨_, taken hnext, ?_⟩
    simp [hs, Chain.reply, pure, Except.pure]
  | turns ha hn hnext hs _ ih =>
    refine bind_eq_ok.2 ⟨_, ha, ?_⟩
    rw [if_neg hn]
    refine bind_eq_ok.2 ⟨_, taken hnext, ?_⟩
    simp only [Option.map_some, if_neg hs]
    exact ih

theorem Course.behavior_eq {steps : Nat} {now : α} {supply : Supply α}
    {current : Option (Behavior α)} {offset : α} {fresh : Bool} {stage : Stage α}
    {reply : Reply α}
    (h : Course update timing w stop steps now supply current offset fresh stage reply) :
    ∃ supply current offset fresh,
      reply.behavior = .chain timing supply current offset fresh := by
  induction h with
  | turns _ _ _ _ _ ih => exact ih
  | _ => exact ⟨_, _, _, _, rfl⟩

theorem Course.timing_eq {steps : Nat} {now : α} {supply : Supply α}
    {current : Option (Behavior α)} {offset : α} {fresh : Bool} {stage : Stage α}
    {reply : Reply α}
    (h : Course update timing w stop steps now supply current offset fresh stage reply) :
    reply.behavior.timing = timing := by
  obtain ⟨_, _, _, _, e⟩ := h.behavior_eq
  rw [e]
  rfl

/-- What an answered window of a chain went through, from the clock to the last turn. -/
theorem update_eq_ok {supply : Supply α} {current : Option (Behavior α)} {offset : α}
    {fresh : Bool} {stage : Stage α} {reply : Reply α} :
    Chain.update timing (.wakeBy update supply current offset fresh) w stage = .ok reply ↔
    ∃ first entered, timing.enter w = .ok (first, entered) ∧
      if first = true then
        ∃ taken after rng, supply.next stage.rng = .ok (taken, after, rng) ∧
          Course update entered w (w.stopWithin entered.lifespan) stepLimit w.start after taken 0
            true { stage with rng } reply
      else Course update entered w (w.stopWithin entered.lifespan) stepLimit w.start supply
        current offset fresh stage reply := by
  constructor
  · intro h
    obtain ⟨⟨first, entered⟩, he, h⟩ := bind_eq_ok.1 h
    refine ⟨first, entered, he, ?_⟩
    cases first with
    | false => exact course_of_run _ h
    | true =>
      obtain ⟨⟨taken, feed, rng⟩, hf, h⟩ := bind_eq_ok.1 h
      have hm := (Supply.next_wakeBy _ _).symm.trans hf
      obtain ⟨⟨b, after, rng⟩, hnext, e⟩ := map_eq_ok.1 hm
      cases e
      exact ⟨b, after, rng, hnext, course_of_run _ h⟩
  · rintro ⟨first, entered, he, h⟩
    refine bind_eq_ok.2 ⟨_, he, ?_⟩
    cases first with
    | false => exact h.run_eq_ok
    | true =>
      obtain ⟨taken, after, rng, hnext, h⟩ := h
      refine bind_eq_ok.2 ⟨_, (Supply.next_wakeBy _ _).trans (by rw [hnext]; rfl), ?_⟩
      exact h.run_eq_ok

end Chain

namespace Branch

section

variable (update : Behavior α → Update α) (start stop : α)

inductive Course : List (Behavior α × Option α) → α → Bool → Stage α → Result α → Prop
  | nil {latest : α} {complete : Bool} {stage : Stage α} :
      Course [] latest complete stage ⟨latest, complete, [], stage⟩
  | done {b : Behavior α} {time latest : α} {rest : List (Behavior α × Option α)}
      {complete : Bool} {stage : Stage α} {result : Result α} :
      Course rest (Scalar.max latest time) complete stage result →
      Course ((b, some time) :: rest) latest complete stage
        { result with branches := (b, some time) :: result.branches }
  | waits {b : Behavior α} {latest : α} {rest : List (Behavior α × Option α)}
      {complete : Bool} {stage : Stage α} {answer : Reply α} {result : Result α} :
      update b ⟨start, stop⟩ stage = .ok answer → answer.leftover < 0 →
      Course rest latest false answer.stage result →
      Course ((b, none) :: rest) latest complete stage
        { result with branches := (answer.behavior, none) :: result.branches }
  | ends {b : Behavior α} {latest : α} {rest : List (Behavior α × Option α)}
      {complete : Bool} {stage : Stage α} {answer : Reply α} {result : Result α} :
      update b ⟨start, stop⟩ stage = .ok answer → ¬answer.leftover < 0 →
      Course rest (Scalar.max latest (stop - answer.leftover)) complete answer.stage result →
      Course ((b, none) :: rest) latest complete stage
        { result with
          branches := (answer.behavior, some (stop - answer.leftover)) :: result.branches }

end

variable {update : Behavior α → Update α} {start stop : α}

theorem course_of_run : ∀ (branches : List (Behavior α × Option α)) {latest : α}
    {complete : Bool} {stage : Stage α} {result : Result α},
    run start stop (wakeBy update branches) latest complete stage = .ok result →
    Course update start stop branches latest complete stage result
  | [], latest, complete, stage, result, h => by
      cases h
      exact .nil
  | (b, some time) :: rest, latest, complete, stage, result, h => by
      obtain ⟨r, hr, h⟩ := bind_eq_ok.1 h
      cases h
      exact .done (course_of_run rest hr)
  | (b, none) :: rest, latest, complete, stage, result, h => by
      obtain ⟨answer, ha, h⟩ := bind_eq_ok.1 h
      by_cases hn : answer.leftover < 0
      · rw [if_pos hn] at h
        obtain ⟨r, hr, h⟩ := bind_eq_ok.1 h
        cases h
        exact .waits ha hn (course_of_run rest hr)
      · rw [if_neg hn] at h
        obtain ⟨r, hr, h⟩ := bind_eq_ok.1 h
        cases h
        exact .ends ha hn (course_of_run rest hr)

theorem Course.run_eq_ok {branches : List (Behavior α × Option α)} {latest : α}
    {complete : Bool} {stage : Stage α} {result : Result α}
    (h : Course update start stop branches latest complete stage result) :
    run start stop (wakeBy update branches) latest complete stage = .ok result := by
  induction h with
  | nil => rfl
  | done _ ih => exact bind_eq_ok.2 ⟨_, ih, rfl⟩
  | waits ha hn _ ih =>
    refine bind_eq_ok.2 ⟨_, ha, ?_⟩
    rw [if_pos hn]
    exact bind_eq_ok.2 ⟨_, ih, rfl⟩
  | ends ha hn _ ih =>
    refine bind_eq_ok.2 ⟨_, ha, ?_⟩
    rw [if_neg hn]
    exact bind_eq_ok.2 ⟨_, ih, rfl⟩

/-- Branches are complete once each of them is. -/
theorem Course.exhausted {branches : List (Behavior α × Option α)} {latest : α}
    {complete : Bool} {stage : Stage α} {result : Result α}
    (h : Course update start stop branches latest complete stage result)
    (hc : result.complete = true) : complete = true ∧ ∀ p ∈ result.branches, p.2 ≠ none := by
  induction h with
  | nil => exact ⟨hc, by simp⟩
  | done _ ih =>
    obtain ⟨hc, all⟩ := ih hc
    exact ⟨hc, by simpa using all⟩
  | waits _ _ _ ih => cases (ih hc).1
  | ends _ _ _ ih =>
    obtain ⟨hc, all⟩ := ih hc
    exact ⟨hc, by simpa using all⟩

/-- Where each branch is complete nothing happens. -/
theorem exists_idle : ∀ {branches : List (Behavior α × Option α)},
    (∀ p ∈ branches, p.2 ≠ none) → ∀ (latest : α) (complete : Bool) (stage : Stage α),
    ∃ result, Course update start stop branches latest complete stage result ∧
      result.stage = stage
  | [], _, _, _, _ => ⟨_, .nil, rfl⟩
  | (_, none) :: _, all, _, _, _ => absurd rfl (all _ List.mem_cons_self)
  | (_, some time) :: rest, all, latest, complete, stage => by
      obtain ⟨result, course, same⟩ := exists_idle (fun p hp => all p (List.mem_cons_of_mem _ hp))
        (Scalar.max latest time) complete stage
      exact ⟨_, .done course, same⟩

/-- What is complete so far changes nothing but the time of the completion. -/
theorem Course.with_latest {branches : List (Behavior α × Option α)} {latest : α}
    {complete : Bool} {stage : Stage α} {result : Result α}
    (h : Course update start stop branches latest complete stage result) : ∀ latest' : α,
    ∃ time, Course update start stop branches latest' complete stage
      { result with latest := time } := by
  induction h with
  | nil => exact fun latest' => ⟨latest', .nil⟩
  | @done b time _ _ _ _ _ _ ih =>
    intro latest'
    obtain ⟨last, course⟩ := ih (Scalar.max latest' time)
    exact ⟨last, .done course⟩
  | waits ha hn _ ih =>
    intro latest'
    obtain ⟨last, course⟩ := ih latest'
    exact ⟨last, .waits ha hn course⟩
  | @ends _ _ _ _ _ answer _ ha hn _ ih =>
    intro latest'
    obtain ⟨last, course⟩ := ih (Scalar.max latest' (stop - answer.leftover))
    exact ⟨last, .ends ha hn course⟩

/-- What an answered window of branches went through. -/
theorem update_eq_ok {timing : Timing α} {branches : List (Behavior α × Option α)}
    {w : Window α} {stage : Stage α} {reply : Reply α} :
    Branch.update timing (wakeBy update branches) w stage = .ok reply ↔
    ∃ first entered result, timing.enter w = .ok (first, entered) ∧
      Course update w.start (w.stopWithin entered.lifespan) branches w.start true stage result ∧
      reply = ⟨if result.complete = true then w.stop - result.latest else entered.verdict w,
        .parallel entered result.branches, result.stage⟩ := by
  constructor
  · intro h
    obtain ⟨⟨first, entered⟩, he, h⟩ := bind_eq_ok.1 h
    obtain ⟨result, hr, h⟩ := bind_eq_ok.1 h
    cases h
    exact ⟨first, entered, result, he, course_of_run _ hr, rfl⟩
  · rintro ⟨first, entered, result, he, hr, rfl⟩
    exact bind_eq_ok.2 ⟨_, he, bind_eq_ok.2 ⟨_, hr.run_eq_ok, rfl⟩⟩

end Branch

theorem Effect.update_eq_ok {timing : Timing α} {e : Effect α} {w : Window α} {stage : Stage α}
    {reply : Reply α} : e.update timing w stage = .ok reply ↔
    ∃ first entered, timing.enter w = .ok (first, entered) ∧
      reply = ⟨entered.verdict w, .leaf entered (e.apply entered first w stage.sprite).1,
        { stage with sprite := (e.apply entered first w stage.sprite).2 }⟩ := by
  constructor
  · intro h
    obtain ⟨⟨first, entered⟩, he, h⟩ := bind_eq_ok.1 h
    cases h
    exact ⟨first, entered, he, rfl⟩
  · rintro ⟨first, entered, he, rfl⟩
    exact bind_eq_ok.2 ⟨_, he, rfl⟩

theorem Batch.update_eq_ok {timing : Timing α} {b : Batch} {body : Gen α (Behavior α)}
    {w : Window α} {stage : Stage α} {reply : Reply α} :
    b.update timing body w stage = .ok reply ↔
    ∃ first entered after, timing.enter w = .ok (first, entered) ∧
      spawn b.total body ((b.moments entered w).flatMap b.positions) stage = .ok after ∧
      reply = ⟨entered.verdict w, .emit entered b body, after⟩ := by
  constructor
  · intro h
    obtain ⟨⟨first, entered⟩, he, h⟩ := bind_eq_ok.1 h
    obtain ⟨after, hs, h⟩ := bind_eq_ok.1 h
    cases h
    exact ⟨first, entered, after, he, hs, rfl⟩
  · rintro ⟨first, entered, after, he, hs, rfl⟩
    exact bind_eq_ok.2 ⟨_, he, bind_eq_ok.2 ⟨_, hs, rfl⟩⟩

end ParticlePatterns
