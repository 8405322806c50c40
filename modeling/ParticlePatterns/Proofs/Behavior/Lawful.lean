import Mathlib
import ParticlePatterns.Proofs.Behavior.Course
import ParticlePatterns.Proofs.Pattern.Yields

/-!
# Lawful behaviors

A behavior is lawful if every body that it or anything made by it may instantiate keeps to some
law. How deep emissions lie within each other can be limited as well. Behaviors stay lawful
through their updates, all they emit is lawful below them, and an update ends in no fault but
those of windows and those of bodies that keep to the law.
-/

set_option autoImplicit false

namespace ParticlePatterns

section Endings

variable {ε T U : Type} {good : T → Prop} {flaw : ε → Prop} {x : Except ε T}

def EndsIn (good : T → Prop) (flaw : ε → Prop) : Except ε T → Prop
  | .ok value => good value
  | .error fault => flaw fault

theorem EndsIn.bind {f : T → Except ε U} {result : U → Prop} (h : EndsIn good flaw x)
    (hf : ∀ v, good v → EndsIn result flaw (f v)) : EndsIn result flaw (x >>= f) := by
  cases x with
  | ok v => exact hf v h
  | error e => exact h

theorem EndsIn.mono {good' : T → Prop} {flaw' : ε → Prop} (h : EndsIn good flaw x)
    (hg : ∀ v, good v → good' v) (hf : ∀ e, flaw e → flaw' e) : EndsIn good' flaw' x := by
  cases x with
  | ok v => exact hg v h
  | error e => exact hf e h

end Endings

variable {α : Type}

inductive Fault.OfWindow : Fault α → Prop
  | backwards {start stop : α} : OfWindow (.backwards start stop)
  | lateStart {start : α} : OfWindow (.lateStart start)
  | gap {start lastStop : α} : OfWindow (.gap start lastStop)

theorem Timing.enter_ends [Scalar α] (t : Timing α) (w : Window α) :
    EndsIn (fun _ => True) Fault.OfWindow (t.enter w) := by
  unfold Timing.enter
  split
  · split
    · split
      · trivial
      · exact .lateStart
    · split
      · trivial
      · exact .gap
  · exact .backwards

def Stage.Adds (kind : Behavior α → Prop) (before after : Stage α) : Prop :=
  ∀ p ∈ after.emitted, p ∈ before.emitted ∨ ∃ b, p.behavior = some b ∧ kind b

namespace Stage.Adds

variable {kind : Behavior α → Prop} {s t u : Stage α}

theorem of_eq (h : t.emitted = s.emitted) : s.Adds kind t :=
  fun _ hp => .inl (h ▸ hp)

theorem trans (h : s.Adds kind t) (h' : t.Adds kind u) : s.Adds kind u := by
  intro p hp
  obtain hp | born := h' p hp
  · exact h p hp
  · exact .inr born

end Stage.Adds

variable (law : Gen α (Behavior α) → Prop)

def Supply.Lawful (s : Supply α) : Prop :=
  ∀ make sibling remaining, s = .body make sibling remaining → law make

/-- All bodies keep to the law, and emissions lie within each other at most as deep as told. -/
inductive Behavior.Lawful : ℕ∞ → Behavior α → Prop
  | leaf {depth : ℕ∞} {timing : Timing α} {effect : Effect α} : Lawful depth (.leaf timing effect)
  | emit {depth below : ℕ∞} {timing : Timing α} {batch : Batch} {body : Gen α (Behavior α)} :
      law body → below + 1 ≤ depth → (∀ b, body.Gives b → Lawful below b) →
      Lawful depth (.emit timing batch body)
  | chain {depth : ℕ∞} {timing : Timing α} {supply : Supply α} {current : Option (Behavior α)}
      {offset : α} {fresh : Bool} : supply.Lawful law →
      (∀ b, supply.Gives b → Lawful depth b) → (∀ b, current = some b → Lawful depth b) →
      Lawful depth (.chain timing supply current offset fresh)
  | parallel {depth : ℕ∞} {timing : Timing α} {branches : List (Behavior α × Option α)} :
      (∀ p ∈ branches, Lawful depth p.1) → Lawful depth (.parallel timing branches)

def Behavior.Born (depth : ℕ∞) (b : Behavior α) : Prop :=
  ∃ below, below + 1 ≤ depth ∧ b.Lawful law below

variable {law} {depth : ℕ∞}

namespace Behavior.Lawful

variable {b : Behavior α}

theorem mono (h : b.Lawful law depth) : ∀ {depth' : ℕ∞}, depth ≤ depth' →
    b.Lawful law depth' := by
  induction h with
  | leaf => exact fun _ => .leaf
  | emit hb room made _ => exact fun hd => .emit hb (room.trans hd) made
  | chain hs _ _ ihs ihc =>
    exact fun hd => .chain hs (fun b hb => ihs b hb hd) fun b hb => ihc b hb hd
  | parallel _ ih => exact fun hd => .parallel fun p hp => ih p hp hd

theorem withTiming (h : b.Lawful law depth) (t : Timing α) : (b.withTiming t).Lawful law depth := by
  cases h with
  | leaf => exact .leaf
  | emit hb room made => exact .emit hb room made
  | chain hs made running => exact .chain hs made running
  | parallel parts => exact .parallel parts

end Behavior.Lawful

namespace Supply.Lawful

variable {s after : Supply α} {r rng : Rng} {b : Option (Behavior α)}

theorem left (h : s.Lawful law) (hn : s.next r = .ok (b, after, rng)) : after.Lawful law := by
  intro make sibling remaining e
  match s with
  | .list [] | .list (_ :: _) =>
    cases hn
    cases e
  | .body _ _ (some 0) =>
    cases hn
    cases e
    exact h _ _ _ rfl
  | .body _ _ none | .body _ _ (some (_ + 1)) =>
    obtain ⟨made, -, he⟩ := map_eq_ok.1 hn
    cases he
    cases e
    exact h _ _ _ rfl

/-- Only a body can be at fault. -/
theorem fails (h : s.Lawful law) {fault : Fault α} (hn : s.next r = .error fault) :
    ∃ g, law g ∧ g.Fails fault := by
  match s with
  | .list [] | .list (_ :: _) | .body _ _ (some 0) => cases hn
  | .body make sibling none | .body make sibling (some (n + 1)) =>
    refine ⟨make, h _ _ _ rfl, sibling, r, ?_⟩
    rw [Supply.next] at hn
    cases hm : make sibling r with
    | ok made => simp [hm, Except.map] at hn
    | error early =>
      rw [hm] at hn
      cases hn
      rfl

end Supply.Lawful

section Updates

variable [Scalar α]

variable (law) in
def Reply.Follows (depth : ℕ∞) (before : Stage α) (reply : Reply α) : Prop :=
  reply.behavior.Lawful law depth ∧ before.Adds (Behavior.Born law depth) reply.stage

variable (law) in
def Fault.Excused (fault : Fault α) : Prop :=
  fault.OfWindow ∨ ∃ g, law g ∧ g.Fails fault

variable (law) in
def Behavior.Upholds (depth : ℕ∞) (b : Behavior α) : Prop :=
  b.Lawful law depth ∧ ∀ w stage,
    EndsIn (Reply.Follows law depth stage) (Fault.Excused law) (b.update w stage)

theorem Timing.enter_excused (t : Timing α) (w : Window α) :
    EndsIn (fun _ => True) (Fault.Excused law) (t.enter w) :=
  (t.enter_ends w).mono (fun _ h => h) fun _ h => .inl h

omit [Scalar α] in
/-- What comes out of a supply was to come out of it. -/
theorem Supply.Lawful.next_excused {s : Supply α} (h : s.Lawful law) (r : Rng) :
    EndsIn (fun taken => taken.2.1.Lawful law ∧ (∀ b, taken.1 = some b → s.Gives b) ∧
      ∀ b, taken.2.1.Gives b → s.Gives b) (Fault.Excused law) (s.next r) := by
  cases hn : s.next r with
  | ok taken =>
    obtain ⟨given, left, -⟩ := next_eq_ok hn
    exact ⟨h.left hn, given, left⟩
  | error fault => exact .inr (h.fails hn)

theorem Batch.spawn_follows {body : Gen α (Behavior α)} (hl : law body)
    (hb : ∀ b, body.Gives b → Behavior.Born law depth b) (total : Nat) (positions : List Nat) :
    ∀ stage : Stage α, EndsIn (stage.Adds (Behavior.Born law depth)) (Fault.Excused law)
      (spawn total body positions stage) := by
  induction positions with
  | nil => exact fun _ => .of_eq rfl
  | cons index rest ih =>
    intro stage
    have drawn : EndsIn (fun made : Behavior α × Rng => Behavior.Born law depth made.1)
        (Fault.Excused law) (body ⟨index, total⟩ stage.rng) := by
      cases hm : body ⟨index, total⟩ stage.rng with
      | ok made => exact hb _ ⟨_, _, made.2, hm⟩
      | error fault => exact .inr ⟨body, hl, _, _, hm⟩
    refine drawn.bind fun made born => (ih _).mono (fun after later => .trans ?_ later) fun _ h => h
    intro p hp
    obtain hp | rfl := Array.mem_push.1 hp
    · exact .inl hp
    · exact .inr ⟨made.1, rfl, born⟩

namespace Chain

variable {update : Behavior α → Update α} {timing : Timing α} {w : Window α} {stop now offset : α}
  {fresh : Bool}

/-! The run of a chain as it comes from a supply. -/

theorem run_zero (supply : Supply α) (current : Option (Behavior α)) (stage : Stage α) :
    run timing w stop 0 now (.wakeBy update supply current offset fresh) stage =
      .ok ⟨timing.verdict w, .chain timing supply current offset fresh, stage⟩ := by
  cases current <;> simp [run, wakeBy, Chain.reply]

theorem run_none (steps : Nat) (supply : Supply α) (stage : Stage α) :
    run timing w stop (steps + 1) now (.wakeBy update supply none offset fresh) stage =
      .ok ⟨w.stop - now, .chain timing supply none offset fresh, stage⟩ := by
  simp [run, wakeBy, Chain.reply]

def proceed (update : Behavior α → Update α) (timing : Timing α) (w : Window α) (stop : α)
    (steps : Nat) (now : α) (stage : Stage α) :
    Option (Behavior α) × Supply α × Rng → Except (Fault α) (Reply α)
  | (none, supply, rng) =>
      .ok ⟨w.stop - now, .chain timing supply none now true, { stage with rng }⟩
  | (some next, supply, rng) =>
      if stop ≤ now then
        .ok ⟨timing.verdict w, .chain timing supply (some next) now true, { stage with rng }⟩
      else run timing w stop steps now (.wakeBy update supply (some next) now true)
        { stage with rng }

theorem run_some (steps : Nat) (supply : Supply α) (child : Behavior α) (stage : Stage α) :
    run timing w stop (steps + 1) now (.wakeBy update supply (some child) offset fresh) stage =
      update child (childWindow now stop offset fresh) stage >>= fun answer =>
        if answer.leftover < 0 then
          .ok ⟨timing.verdict w, .chain timing supply (some answer.behavior) offset false,
            answer.stage⟩
        else supply.next answer.stage.rng >>=
          proceed update timing w stop steps (Scalar.max (stop - answer.leftover) now)
            answer.stage := by
  refine congrArg (_ >>= ·) (funext fun answer => ?_)
  by_cases waits : answer.leftover < 0
  · rw [if_pos waits, if_pos waits]
    simp [wakeBy, Chain.reply, pure, Except.pure]
  · rw [if_neg waits, if_neg waits]
    simp only [wakeBy, Supply.next_wakeBy]
    cases supply.next answer.stage.rng with
    | error fault => rfl
    | ok taken =>
      obtain ⟨next, after, rng⟩ := taken
      cases next with
      | none => simp [Except.map, bind, Except.bind, pure, Except.pure, proceed, Chain.reply]
      | some b =>
        simp [Except.map, bind, Except.bind, pure, Except.pure, proceed, Chain.reply, wakeBy]

theorem update_wakeBy (supply : Supply α) (current : Option (Behavior α)) (stage : Stage α) :
    Chain.update timing (.wakeBy update supply current offset fresh) w stage =
      timing.enter w >>= fun entered =>
        let stop := w.stopWithin entered.2.lifespan
        if entered.1 then supply.next stage.rng >>= fun taken =>
          run entered.2 w stop stepLimit w.start (.wakeBy update taken.2.1 taken.1 0 true)
            { stage with rng := taken.2.2 }
        else run entered.2 w stop stepLimit w.start (.wakeBy update supply current offset fresh)
          stage := by
  refine congrArg (_ >>= ·) (funext fun entered => ?_)
  obtain ⟨first, entered⟩ := entered
  cases first with
  | false => rfl
  | true =>
    simp only [wakeBy, Supply.next_wakeBy]
    cases supply.next stage.rng <;> rfl

end Chain

/-- Whatever a chain has come to, it is made of parts that are lawful. -/
theorem Chain.follows {timing : Timing α} {supply : Supply α} {current : Option (Behavior α)}
    {offset leftover : α} {fresh : Bool} {before after : Stage α} (hl : supply.Lawful law)
    (hs : ∀ b, supply.Gives b → b.Upholds law depth)
    (hc : ∀ b, current = some b → b.Lawful law depth)
    (adds : before.Adds (Behavior.Born law depth) after) : Reply.Follows law depth before
      ⟨leftover, .chain timing supply current offset fresh, after⟩ :=
  ⟨.chain hl (fun b hb => (hs b hb).1) hc, adds⟩

theorem Chain.run_follows {timing : Timing α} {w : Window α} {stop : α} (steps : Nat) :
    ∀ {now : α} {supply : Supply α} {current : Option (Behavior α)} {offset : α} {fresh : Bool}
      (stage : Stage α), supply.Lawful law → (∀ b, supply.Gives b → b.Upholds law depth) →
      (∀ b, current = some b → b.Upholds law depth) →
      EndsIn (Reply.Follows law depth stage) (Fault.Excused law)
        (run timing w stop steps now (.wakeBy Behavior.update supply current offset fresh)
          stage) := by
  induction steps with
  | zero =>
    intro now supply current offset fresh stage hl hs hc
    rw [run_zero]
    exact follows hl hs (fun b hb => (hc b hb).1) (.of_eq rfl)
  | succ steps ih =>
    intro now supply current offset fresh stage hl hs hc
    cases current with
    | none =>
      rw [run_none]
      exact follows hl hs (by simp) (.of_eq rfl)
    | some child =>
      rw [run_some]
      refine ((hc child rfl).2 _ stage).bind fun answer ⟨lawful, adds⟩ => ?_
      split
      · exact follows hl hs (fun b hb => Option.some.inj hb ▸ lawful) adds
      · refine (hl.next_excused answer.stage.rng).bind ?_
        rintro ⟨next, after, rng⟩ ⟨hl, given, left⟩
        have hs' : ∀ b, after.Gives b → b.Upholds law depth := fun b hb => hs b (left b hb)
        have hn : ∀ b, next = some b → b.Upholds law depth := fun b hb => hs b (given b hb)
        have adds' : stage.Adds (Behavior.Born law depth) { answer.stage with rng } := adds
        cases next with
        | none => exact follows hl hs' (by simp) adds'
        | some b =>
          rw [proceed]
          split
          · exact follows hl hs' (fun b hb => (hn b hb).1) adds'
          · exact (ih _ hl hs' hn).mono (fun reply ⟨lawful, more⟩ => ⟨lawful, adds'.trans more⟩)
              fun _ h => h

theorem Branch.run_follows {start stop : α} : ∀ {branches : List (Behavior α × Option α)}
    {latest : α} {complete : Bool} (stage : Stage α), (∀ p ∈ branches, p.1.Upholds law depth) →
    EndsIn (fun result => (∀ p ∈ result.branches, p.1.Lawful law depth) ∧
        stage.Adds (Behavior.Born law depth) result.stage) (Fault.Excused law)
      (run start stop (wakeBy Behavior.update branches) latest complete stage)
  | [], _, _, _, _ => ⟨by simp, .of_eq rfl⟩
  | (b, some time) :: rest, latest, complete, stage, h => by
      obtain ⟨first, later⟩ := List.forall_mem_cons.1 h
      refine (run_follows stage later).bind fun result ⟨lawful, adds⟩ => ?_
      exact ⟨List.forall_mem_cons.2 ⟨first.1, lawful⟩, adds⟩
  | (b, none) :: rest, latest, complete, stage, h => by
      obtain ⟨first, later⟩ := List.forall_mem_cons.1 h
      refine (first.2 ⟨start, stop⟩ stage).bind fun answer ⟨kept, adds⟩ => ?_
      split
      all_goals
        refine (run_follows answer.stage later).bind fun result ⟨lawful, more⟩ => ?_
        exact ⟨List.forall_mem_cons.2 ⟨kept, lawful⟩, adds.trans more⟩

/-- Lawful behaviors stay lawful, and so is all that they emit. -/
theorem Behavior.Lawful.upholds {b : Behavior α} (h : b.Lawful law depth) :
    b.Upholds law depth := by
  refine ⟨h, fun w stage => ?_⟩
  induction h generalizing w stage with
  | leaf => exact (Timing.enter_excused _ w).bind fun _ _ => ⟨.leaf, .of_eq rfl⟩
  | emit hl room made =>
    refine (Timing.enter_excused _ w).bind fun entered _ => ?_
    refine (Batch.spawn_follows hl (fun b hb => ⟨_, room, made b hb⟩) _ _ stage).bind
      fun after adds => ?_
    exact ⟨.emit hl room made, adds⟩
  | @chain depth _ supply current _ _ hl given running ihs ihc =>
    have hs : ∀ b, supply.Gives b → b.Upholds law depth := fun b hb => ⟨given b hb, ihs b hb⟩
    have hc : ∀ b, current = some b → b.Upholds law depth :=
      fun b hb => ⟨running b hb, ihc b hb⟩
    rw [update_chain, Chain.update_wakeBy]
    refine (Timing.enter_excused _ w).bind fun entered _ => ?_
    simp only
    split
    · refine (Supply.Lawful.next_excused hl stage.rng).bind fun taken ⟨hl, first, left⟩ => ?_
      exact Chain.run_follows _ { stage with rng := taken.2.2 } hl (fun b hb => hs b (left b hb))
        fun b hb => hs b (first b hb)
    · exact Chain.run_follows _ stage hl hs hc
  | parallel parts ih =>
    rw [update_parallel]
    refine (Timing.enter_excused _ w).bind fun entered _ => ?_
    refine (Branch.run_follows stage fun p hp => ⟨parts p hp, ih p hp⟩).bind
      fun result ⟨lawful, adds⟩ => ?_
    exact ⟨.parallel lawful, adds⟩

end Updates

end ParticlePatterns
