import ParticlePatterns.Behavior.Update

/-!
# Parts of behaviors

What a behavior may hand the time on to: what its generators can make, what is left in
its supply, and what it is driving. Every property that goes from the parts to the whole
holds of every behavior. The parts can be woken by any choice of updates, not only by
their own.
-/

set_option autoImplicit false

namespace ParticlePatterns

section Outcome

variable {ε T U : Type}

theorem bind_eq_ok {x : Except ε T} {f : T → Except ε U} {b : U} :
    (x >>= f) = .ok b ↔ ∃ a, x = .ok a ∧ f a = .ok b := by
  cases x with
  | error e => simp [bind, Except.bind]
  | ok a => simp [bind, Except.bind]

theorem map_eq_ok {x : Except ε T} {f : T → U} {b : U} :
    x.map f = .ok b ↔ ∃ a, x = .ok a ∧ f a = b := by
  cases x with
  | error e => simp [Except.map]
  | ok a => simp [Except.map]

end Outcome

variable {α : Type}

namespace Gen

variable {T : Type}

def Gives (g : Gen α T) (value : T) : Prop :=
  ∃ sibling r after, g sibling r = .ok (value, after)

def Total (g : Gen α T) : Prop :=
  ∀ sibling r, ∃ value after, g sibling r = .ok (value, after)

end Gen

namespace Supply

def Gives : Supply α → Behavior α → Prop
  | .body make sibling _, b => ∃ r after, make sibling r = .ok (b, after)
  | .list rest, b => b ∈ rest

def Total : Supply α → Prop
  | .body make sibling _ => ∀ r, ∃ b after, make sibling r = .ok (b, after)
  | .list _ => True

end Supply

structure Behavior.Inherited (motive : Behavior α → Prop) : Prop where
  leaf : ∀ timing effect, motive (.leaf timing effect)
  emit : ∀ timing batch (body : Gen α (Behavior α)), (∀ b, body.Gives b → motive b) →
    motive (.emit timing batch body)
  chain : ∀ timing supply current offset fresh, (∀ b, supply.Gives b → motive b) →
    (∀ b, current = some b → motive b) → motive (.chain timing supply current offset fresh)
  parallel : ∀ timing branches, (∀ p ∈ branches, motive p.1) → motive (.parallel timing branches)

namespace Behavior.Inherited

variable {motive : Behavior α → Prop}

mutual
theorem all (h : Inherited motive) : ∀ b : Behavior α, motive b
  | .leaf timing effect => h.leaf timing effect
  | .emit timing batch body => by
      refine h.emit timing batch body ?_
      rintro b ⟨sibling, r, after, hb⟩
      exact h.drawn (body sibling r) b after hb
  | .chain timing supply current offset fresh =>
      h.chain timing supply current offset fresh (h.supplied supply) (h.running current)
  | .parallel timing branches => h.parallel timing branches (h.branched branches)
theorem supplied (h : Inherited motive) : ∀ (s : Supply α) (b : Behavior α), s.Gives b → motive b
  | .body make sibling _ => by
      rintro b ⟨r, after, hb⟩
      exact h.drawn (make sibling r) b after hb
  | .list rest => fun b hb => h.listed rest b hb
theorem running (h : Inherited motive) : ∀ (c : Option (Behavior α)) (b : Behavior α),
    c = some b → motive b
  | none => by
      intro b hb
      cases hb
  | some c => by
      intro b hb
      cases hb
      exact h.all c
theorem listed (h : Inherited motive) : ∀ (bs : List (Behavior α)), ∀ b ∈ bs, motive b
  | [] => by simp
  | b :: rest => by
      simp only [List.mem_cons, forall_eq_or_imp]
      exact ⟨h.all b, h.listed rest⟩
theorem branched (h : Inherited motive) : ∀ (bs : List (Behavior α × Option α)),
    ∀ p ∈ bs, motive p.1
  | [] => by simp
  | (b, time) :: rest => by
      simp only [List.mem_cons, forall_eq_or_imp]
      exact ⟨h.all b, h.branched rest⟩
theorem drawn (h : Inherited motive) : ∀ (result : Except (Fault α) (Behavior α × Rng))
    (b : Behavior α) (after : Rng), result = .ok (b, after) → motive b
  | .error fault => by
      intro b after hb
      cases hb
  | .ok (c, r) => by
      intro b after hb
      cases hb
      exact h.all c
end

end Behavior.Inherited

namespace Supply

def next : Supply α → Rng → Except (Fault α) (Option (Behavior α) × Supply α × Rng)
  | .list [], r => .ok (none, .list [], r)
  | .list (b :: rest), r => .ok (some b, .list rest, r)
  | .body make sibling none, r =>
      (make sibling r).map fun (b, r) => (some b, .body make sibling none, r)
  | .body make sibling (some 0), r => .ok (none, .body make sibling (some 0), r)
  | .body make sibling (some (n + 1)), r =>
      (make sibling r).map fun (b, r) => (some b, .body make sibling (some n), r)

def wakeBy (update : Behavior α → Update α) : Supply α → Feed α
  | .body make sibling remaining =>
      .body make sibling remaining fun r => (make sibling r).map fun (b, r) => (⟨b, update b⟩, r)
  | .list rest => .list (rest.map fun b => ⟨b, update b⟩)

variable {update : Behavior α → Update α}

@[simp] theorem toSupply_wakeBy (s : Supply α) : (s.wakeBy update).toSupply = s := by
  cases s with
  | body make sibling remaining => rfl
  | list rest => simp [wakeBy, Feed.toSupply, Function.comp_def]

theorem next_wakeBy (s : Supply α) (r : Rng) : (s.wakeBy update).next r =
    (s.next r).map fun (b, s, r) => (b.map fun b => ⟨b, update b⟩, s.wakeBy update, r) := by
  match s with
  | .list [] => rfl
  | .list (b :: rest) => rfl
  | .body make sibling (some 0) => rfl
  | .body make sibling none =>
    simp only [wakeBy, Feed.next, next]
    cases make sibling r <;> rfl
  | .body make sibling (some (n + 1)) =>
    simp only [wakeBy, Feed.next, next]
    cases make sibling r <;> rfl

theorem wakeBy_congr {u v : Behavior α → Update α} {s : Supply α}
    (h : ∀ b, s.Gives b → u b = v b) : s.wakeBy u = s.wakeBy v := by
  cases s with
  | body make sibling remaining =>
    rw [wakeBy, wakeBy]
    congr 1
    funext r
    cases hm : make sibling r with
    | error fault => rfl
    | ok made =>
      have e := h made.1 ⟨r, made.2, hm⟩
      simp [Except.map, e]
  | list rest =>
    rw [wakeBy, wakeBy]
    congr 1
    refine List.map_congr_left fun b hb => ?_
    rw [h b hb]

theorem next_eq_ok {s after : Supply α} {r r' : Rng} {b : Option (Behavior α)}
    (h : s.next r = .ok (b, after, r')) : (∀ c, b = some c → s.Gives c) ∧
      (∀ c, after.Gives c → s.Gives c) ∧ (s.Total → after.Total) := by
  match s with
  | .list [] =>
    cases h
    simp
  | .list (c :: rest) =>
    cases h
    simp +contextual [Gives, Total]
  | .body make sibling (some 0) =>
    cases h
    simp
  | .body make sibling none =>
    obtain ⟨⟨made, _⟩, hm, he⟩ := map_eq_ok.1 h
    cases he
    exact ⟨fun c hc => ⟨r, r', by rw [hm, ← Option.some.inj hc]⟩, fun _ hc => hc, id⟩
  | .body make sibling (some (n + 1)) =>
    obtain ⟨⟨made, _⟩, hm, he⟩ := map_eq_ok.1 h
    cases he
    exact ⟨fun c hc => ⟨r, r', by rw [hm, ← Option.some.inj hc]⟩, fun _ hc => hc, id⟩

theorem Total.next {s : Supply α} (h : s.Total) (r : Rng) : ∃ result, s.next r = .ok result := by
  match s with
  | .list [] => exact ⟨_, rfl⟩
  | .list (b :: rest) => exact ⟨_, rfl⟩
  | .body make sibling (some 0) => exact ⟨_, rfl⟩
  | .body make sibling none =>
    obtain ⟨b, after, hm⟩ := h r
    exact ⟨_, by rw [Supply.next, hm]; rfl⟩
  | .body make sibling (some (n + 1)) =>
    obtain ⟨b, after, hm⟩ := h r
    exact ⟨_, by rw [Supply.next, hm]; rfl⟩

end Supply

def Chain.wakeBy (update : Behavior α → Update α) (supply : Supply α)
    (current : Option (Behavior α)) (offset : α) (fresh : Bool) : Chain α :=
  ⟨supply.wakeBy update, current.map fun b => ⟨b, update b⟩, offset, fresh⟩

def Branch.wakeBy (update : Behavior α → Update α) (branches : List (Behavior α × Option α)) :
    List (Awake α × Option α) :=
  branches.map fun (b, time) => (⟨b, update b⟩, time)

namespace Behavior

variable [Scalar α]

theorem wake_supply (s : Supply α) : Supply.wake s = s.wakeBy update := by
  cases s with
  | body make sibling remaining =>
    rw [Supply.wake, Supply.wakeBy]
    congr 1
    funext r
    cases make sibling r <;> simp [wakeDrawn, Except.map]
  | list rest =>
    rw [Supply.wake, wakeAll_eq_map]
    rfl

@[simp] theorem update_chain (timing : Timing α) (supply : Supply α)
    (current : Option (Behavior α)) (offset : α) (fresh : Bool) :
    (chain timing supply current offset fresh).update =
      Chain.update timing (.wakeBy update supply current offset fresh) := by
  rw [Behavior.update, wake_supply, wakeSome_eq_map]
  rfl

@[simp] theorem update_parallel (timing : Timing α) (branches : List (Behavior α × Option α)) :
    (parallel timing branches).update = Branch.update timing (Branch.wakeBy update branches) := by
  rw [Behavior.update, wakeBranches_eq_map]
  rfl

end Behavior

end ParticlePatterns
