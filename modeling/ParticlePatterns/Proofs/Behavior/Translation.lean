import Mathlib
import ParticlePatterns.Proofs.Behavior.Lawful

/-!
# Translations

A translation changes behaviors, what they are drawn from, and the random state. It is faithful
if a translated body makes what the body makes, translated, and the rest of a behavior stays as
it is. Translated behaviors then do what the behaviors themselves do, window by window, except
where these meet a fault of which nothing is asked.
-/

set_option autoImplicit false

namespace ParticlePatterns

section Refinement

variable {ε T T' U U' : Type} {flaw : ε → Prop} {change : T → T'} {change' : U → U'}
  {x : Except ε T} {y : Except ε T'}

/-- The second outcome is the first one, changed. Nothing is asked of it if the first one is
among certain faults. -/
def Refines (flaw : ε → Prop) (change : T → T') (x : Except ε T) (y : Except ε T') : Prop :=
  match x with
  | .ok value => y = .ok (change value)
  | .error fault => flaw fault ∨ y = .error fault

namespace Refines

theorem refl (x : Except ε T) : Refines flaw id x x := by
  cases x with
  | ok v => rfl
  | error e => exact .inr rfl

theorem bind {f : T → Except ε U} {g : T' → Except ε U'} (h : Refines flaw change x y)
    (hf : ∀ v, x = .ok v → Refines flaw change' (f v) (g (change v))) :
    Refines flaw change' (x >>= f) (y >>= g) := by
  cases x with
  | ok v =>
    obtain rfl : y = .ok (change v) := h
    exact hf v rfl
  | error e =>
    obtain allowed | rfl : flaw e ∨ y = .error e := h
    · exact .inl allowed
    · exact .inr rfl

theorem map {f : T → U} {g : T' → U'} (h : Refines flaw change x y)
    (hf : ∀ v, g (change v) = change' (f v)) : Refines flaw change' (x.map f) (y.map g) := by
  cases x with
  | ok v =>
    obtain rfl : y = .ok (change v) := h
    exact congrArg Except.ok (hf v)
  | error e =>
    obtain allowed | rfl : flaw e ∨ y = .error e := h
    · exact .inl allowed
    · exact .inr rfl

/-- Where something is asked of every fault, the outcomes are the same up to the change. -/
theorem iff_eq_map : Refines (fun _ => False) change x y ↔ y = x.map change := by
  cases x with
  | ok v => exact Iff.rfl
  | error e => exact Iff.of_eq (false_or _)

end Refines

/-- What comes after goes along with what has been changed in the result before. -/
theorem bind_eq_map {f : T → Except ε U} {g : T' → Except ε U'} (h : y = x.map change)
    (hf : ∀ v, x = .ok v → g (change v) = (f v).map change') :
    (y >>= g) = (x >>= f).map change' :=
  Refines.iff_eq_map.1 ((Refines.iff_eq_map.2 h).bind fun v hv => Refines.iff_eq_map.2 (hf v hv))

end Refinement

variable {α : Type}

structure Translation (α : Type) where
  behavior : Behavior α → Behavior α
  body : Gen α (Behavior α) → Gen α (Behavior α)
  rng : Rng → Rng

namespace Translation

variable (t : Translation α)

def supply : Supply α → Supply α
  | .body make sibling remaining => .body (t.body make) sibling remaining
  | .list rest => .list (rest.map t.behavior)

def branches (bs : List (Behavior α × Option α)) : List (Behavior α × Option α) :=
  bs.map fun p => (t.behavior p.1, p.2)

def particle (p : Particle α) : Particle α :=
  { p with behavior := p.behavior.map t.behavior }

def stage (s : Stage α) : Stage α :=
  ⟨s.sprite, t.rng s.rng, s.emitted.map t.particle⟩

def reply (answer : Reply α) : Reply α :=
  ⟨answer.leftover, t.behavior answer.behavior, t.stage answer.stage⟩

def result (r : Branch.Result α) : Branch.Result α :=
  ⟨r.latest, r.complete, t.branches r.branches, t.stage r.stage⟩

def made (made : Behavior α × Rng) : Behavior α × Rng :=
  (t.behavior made.1, t.rng made.2)

def taken (taken : Option (Behavior α) × Supply α × Rng) :
    Option (Behavior α) × Supply α × Rng :=
  (taken.1.map t.behavior, t.supply taken.2.1, t.rng taken.2.2)

structure Faithful (law : Gen α (Behavior α) → Prop) (flaw : Fault α → Prop) : Prop where
  leaf : ∀ timing effect, t.behavior (.leaf timing effect) = .leaf timing effect
  emit : ∀ timing batch body,
    t.behavior (.emit timing batch body) = .emit timing batch (t.body body)
  chain : ∀ timing supply current offset fresh,
    t.behavior (.chain timing supply current offset fresh) =
      .chain timing (t.supply supply) (current.map t.behavior) offset fresh
  parallel : ∀ timing branches,
    t.behavior (.parallel timing branches) = .parallel timing (t.branches branches)
  made : ∀ body, law body → ∀ s r, Refines flaw t.made (body s r) (t.body body s (t.rng r))

end Translation

variable [Scalar α] {t : Translation α} {law : Gen α (Behavior α) → Prop} {flaw : Fault α → Prop}

variable (t flaw) in
def Behavior.Translated (b : Behavior α) : Prop :=
  ∀ w stage, Refines flaw t.reply (b.update w stage) ((t.behavior b).update w (t.stage stage))

omit [Scalar α] in
theorem Supply.Lawful.next_refines (h : t.Faithful law flaw) {s : Supply α} (hl : s.Lawful law)
    (r : Rng) : Refines flaw t.taken (s.next r) ((t.supply s).next (t.rng r)) := by
  match s with
  | .list [] | .list (_ :: _) | .body _ _ (some 0) => rfl
  | .body make sibling none | .body make sibling (some (n + 1)) =>
    exact (h.made make (hl _ _ _ rfl) sibling r).map fun _ => rfl

theorem Batch.spawn_refines {body body' : Gen α (Behavior α)}
    (h : ∀ s r, Refines flaw t.made (body s r) (body' s (t.rng r))) (total : Nat)
    (positions : List Nat) : ∀ stage : Stage α, Refines flaw t.stage
      (spawn total body positions stage) (spawn total body' positions (t.stage stage)) := by
  induction positions with
  | nil => exact fun _ => rfl
  | cons index rest ih =>
    refine fun stage => (h ⟨index, total⟩ stage.rng).bind fun drawn _ => ?_
    have next := ih { stage with
      rng := drawn.2, emitted := stage.emitted.push (.spawnedBy stage.sprite drawn.1) }
    rw [Translation.stage, Array.map_push] at next
    exact next

theorem Chain.run_refines (h : t.Faithful law flaw) {timing : Timing α} {w : Window α} {stop : α}
    (steps : Nat) : ∀ {now : α} {supply : Supply α} {current : Option (Behavior α)} {offset : α}
      {fresh : Bool} (stage : Stage α), supply.Lawful law →
      (∀ b, supply.Gives b → b.Translated t flaw) →
      (∀ b, current = some b → b.Translated t flaw) → Refines flaw t.reply
        (run timing w stop steps now (.wakeBy Behavior.update supply current offset fresh) stage)
        (run timing w stop steps now (.wakeBy Behavior.update (t.supply supply)
          (current.map t.behavior) offset fresh) (t.stage stage)) := by
  -- Wherever a run ends, it replies with a chain that is made of what has been translated.
  have ends : ∀ (leftover : α) (supply : Supply α) (current : Option (Behavior α)) (offset : α)
      (fresh : Bool) (stage : Stage α), Refines flaw t.reply
        (.ok ⟨leftover, .chain timing supply current offset fresh, stage⟩)
        (.ok ⟨leftover, .chain timing (t.supply supply) (current.map t.behavior) offset fresh,
          t.stage stage⟩) := by
    intro leftover supply current offset fresh stage
    rw [← h.chain]
    rfl
  induction steps with
  | zero =>
    intro now supply current offset fresh stage _ _ _
    rw [run_zero, run_zero]
    exact ends ..
  | succ steps ih =>
    intro now supply current offset fresh stage hl hs hc
    cases current with
    | none =>
      rw [Option.map_none, run_none, run_none]
      exact ends _ _ none ..
    | some child =>
      rw [Option.map_some, run_some, run_some]
      refine (hc child rfl _ stage).bind fun answer _ => ?_
      have leftover : (t.reply answer).leftover = answer.leftover := rfl
      rw [leftover]
      by_cases waits : answer.leftover < 0
      · rw [if_pos waits, if_pos waits]
        exact ends _ _ (some answer.behavior) ..
      · rw [if_neg waits, if_neg waits]
        refine (hl.next_refines h answer.stage.rng).bind ?_
        rintro ⟨next, after, rng⟩ hn
        obtain ⟨given, left, -⟩ := Supply.next_eq_ok hn
        cases next with
        | none => exact ends _ after none _ _ { answer.stage with rng }
        | some b =>
          simp only [Translation.taken, Option.map_some]
          rw [proceed, proceed]
          split
          · exact ends _ after (some b) _ _ { answer.stage with rng }
          · exact ih { answer.stage with rng } (hl.left hn) (fun b hb => hs b (left b hb))
              fun b hb => hs b (given b hb)

theorem Branch.run_refines {start stop : α} : ∀ {branches : List (Behavior α × Option α)}
    {latest : α} {complete : Bool} (stage : Stage α), (∀ p ∈ branches, p.1.Translated t flaw) →
    Refines flaw t.result
      (run start stop (wakeBy Behavior.update branches) latest complete stage)
      (run start stop (wakeBy Behavior.update (t.branches branches)) latest complete
        (t.stage stage))
  | [], _, _, _, _ => rfl
  | (b, some time) :: rest, latest, complete, stage, h => by
      obtain ⟨_, later⟩ := List.forall_mem_cons.1 h
      exact (run_refines stage later).bind fun _ _ => rfl
  | (b, none) :: rest, latest, complete, stage, h => by
      obtain ⟨first, later⟩ := List.forall_mem_cons.1 h
      refine (first ⟨start, stop⟩ stage).bind fun answer _ => ?_
      have leftover : (t.reply answer).leftover = answer.leftover := rfl
      rw [leftover]
      by_cases waits : answer.leftover < 0
      · rw [if_pos waits, if_pos waits]
        exact (run_refines answer.stage later).bind fun _ _ => rfl
      · rw [if_neg waits, if_neg waits]
        exact (run_refines answer.stage later).bind fun _ _ => rfl

/-- A faithful translation of a lawful behavior does what the behavior does. -/
theorem Behavior.Lawful.translated (h : t.Faithful law flaw) {depth : ℕ∞} {b : Behavior α}
    (hb : b.Lawful law depth) : b.Translated t flaw := by
  intro w stage
  induction hb generalizing w stage with
  | leaf =>
    rw [h.leaf]
    refine (Refines.refl _).bind fun _ _ => ?_
    exact congrArg Except.ok (by rw [Translation.reply, h.leaf]; rfl)
  | @emit _ _ timing batch body hl _ _ _ =>
    rw [h.emit]
    refine (Refines.refl _).bind fun entered _ => ?_
    refine (Batch.spawn_refines (h.made body hl) _ _ stage).bind fun after _ => ?_
    exact congrArg Except.ok (by rw [Translation.reply, h.emit])
  | chain hl _ _ ihs ihc =>
    rw [h.chain, update_chain, update_chain, Chain.update_wakeBy, Chain.update_wakeBy]
    refine (Refines.refl _).bind fun entered _ => ?_
    simp only [id]
    split
    · refine (hl.next_refines h stage.rng).bind fun taken hn => ?_
      obtain ⟨first, left, -⟩ := Supply.next_eq_ok hn
      exact Chain.run_refines h _ { stage with rng := taken.2.2 } (hl.left hn)
        (fun b hb => ihs b (left b hb)) fun b hb => ihs b (first b hb)
    · exact Chain.run_refines h _ stage hl ihs ihc
  | @parallel _ timing branches _ ih =>
    have each : ∀ p ∈ branches, p.1.Translated t flaw := ih
    rw [h.parallel, update_parallel, update_parallel]
    refine (Refines.refl _).bind fun entered _ => ?_
    refine (Branch.run_refines stage each).bind fun result _ => ?_
    exact congrArg Except.ok (by rw [Translation.reply, h.parallel]; rfl)

end ParticlePatterns
