import ParticlePatterns.Proofs.Behavior.Course

/-!
# Watched updates

A watch sees every behavior together with its update before the update is called, at
whatever depth. A watch that lets every window pass watches nothing but the update of
the behavior, and one that can only stop it does not change what comes out of it.
-/

set_option autoImplicit false

namespace ParticlePatterns

abbrev Watch (α : Type) : Type :=
  Behavior α → Update α → Update α

variable {α : Type} [Scalar α]

section Waking

variable (watch : Watch α)

mutual
def Behavior.updateUnder : Behavior α → Update α
  | .leaf timing effect => watch (.leaf timing effect) (effect.update timing)
  | .emit timing batch body => watch (.emit timing batch body) (batch.update timing body)
  | .chain timing supply current offset fresh =>
      watch (.chain timing supply current offset fresh)
        (Chain.update timing
          ⟨Supply.wakeUnder supply, Behavior.wakeSomeUnder current, offset, fresh⟩)
  | .parallel timing branches =>
      watch (.parallel timing branches)
        (Branch.update timing (Behavior.wakeBranchesUnder branches))
def Supply.wakeUnder : Supply α → Feed α
  | .body body sibling remaining =>
      .body body sibling remaining fun r => Behavior.wakeDrawnUnder (body sibling r)
  | .list rest => .list (Behavior.wakeAllUnder rest)
def Behavior.wakeSomeUnder : Option (Behavior α) → Option (Awake α)
  | none => none
  | some b => some ⟨b, b.updateUnder⟩
def Behavior.wakeAllUnder : List (Behavior α) → List (Awake α)
  | [] => []
  | b :: rest => ⟨b, b.updateUnder⟩ :: Behavior.wakeAllUnder rest
def Behavior.wakeBranchesUnder : List (Behavior α × Option α) → List (Awake α × Option α)
  | [] => []
  | (b, time) :: rest => (⟨b, b.updateUnder⟩, time) :: Behavior.wakeBranchesUnder rest
def Behavior.wakeDrawnUnder :
    Except (Fault α) (Behavior α × Rng) → Except (Fault α) (Awake α × Rng)
  | .error fault => .error fault
  | .ok (b, r) => .ok (⟨b, b.updateUnder⟩, r)
end

end Waking

namespace Behavior

variable {watch : Watch α}

theorem wakeUnder_supply (s : Supply α) :
    Supply.wakeUnder watch s = s.wakeBy (updateUnder watch) := by
  cases s with
  | body make sibling remaining =>
    rw [Supply.wakeUnder, Supply.wakeBy]
    congr 1
    funext r
    cases make sibling r <;> simp [wakeDrawnUnder, Except.map]
  | list rest =>
    rw [Supply.wakeUnder, Supply.wakeBy]
    congr 1
    induction rest with
    | nil => rfl
    | cons b rest ih => rw [wakeAllUnder, ih, List.map_cons]

theorem wakeBranchesUnder_eq_wakeBy (branches : List (Behavior α × Option α)) :
    wakeBranchesUnder watch branches = Branch.wakeBy (updateUnder watch) branches := by
  induction branches with
  | nil => rfl
  | cons b rest ih =>
    rw [wakeBranchesUnder, ih]
    rfl

@[simp] theorem updateUnder_chain (timing : Timing α) (supply : Supply α)
    (current : Option (Behavior α)) (offset : α) (fresh : Bool) :
    (chain timing supply current offset fresh).updateUnder watch =
      watch (chain timing supply current offset fresh)
        (Chain.update timing (.wakeBy (updateUnder watch) supply current offset fresh)) := by
  rw [updateUnder, wakeUnder_supply]
  cases current <;> rfl

@[simp] theorem updateUnder_parallel (timing : Timing α)
    (branches : List (Behavior α × Option α)) :
    (parallel timing branches).updateUnder watch =
      watch (parallel timing branches)
        (Branch.update timing (Branch.wakeBy (updateUnder watch) branches)) := by
  rw [updateUnder, wakeBranchesUnder_eq_wakeBy]

end Behavior

/-- Without a watch that does anything, behaviors are driven as they always are. -/
theorem Behavior.updateUnder_eq_update {watch : Watch α} (idle : ∀ b u, watch b u = u)
    (b : Behavior α) : b.updateUnder watch = b.update := by
  have whole : Inherited fun b : Behavior α => b.updateUnder watch = b.update := by
    constructor
    case leaf => exact fun _ _ => idle _ _
    case emit => exact fun _ _ _ _ => idle _ _
    case chain =>
      intro timing supply current offset fresh hs hc
      rw [updateUnder_chain, update_chain, idle, Chain.wakeBy, Chain.wakeBy,
        Supply.wakeBy_congr hs]
      cases current with
      | none => rfl
      | some child => simp [hc child rfl]
    case parallel =>
      intro timing branches hb
      rw [updateUnder_parallel, update_parallel, idle, Branch.wakeBy, Branch.wakeBy]
      congr 1
      refine List.map_congr_left fun p hp => ?_
      simp [hb p hp]
  exact whole.all b

def Update.Within (u v : Update α) : Prop :=
  ∀ w stage reply, u w stage = .ok reply → v w stage = .ok reply

theorem Chain.Course.within {u v : Behavior α → Update α} {timing : Timing α} {w : Window α}
    {stop : α} {steps : Nat} {now : α} {supply : Supply α} {current : Option (Behavior α)}
    {offset : α} {fresh : Bool} {stage : Stage α} {reply : Reply α}
    (h : Course u timing w stop steps now supply current offset fresh stage reply)
    (hs : ∀ b, supply.Gives b → (u b).Within (v b))
    (hc : ∀ b, current = some b → (u b).Within (v b)) :
    Course v timing w stop steps now supply current offset fresh stage reply := by
  induction h with
  | spent => exact .spent
  | idle => exact .idle
  | waits ha hn => exact .waits (hc _ rfl _ _ _ ha) hn
  | ends ha hn hnext => exact .ends (hc _ rfl _ _ _ ha) hn hnext
  | defers ha hn hnext hd => exact .defers (hc _ rfl _ _ _ ha) hn hnext hd
  | turns ha hn hnext hd _ ih =>
    obtain ⟨given, left, _⟩ := Supply.next_eq_ok hnext
    refine .turns (hc _ rfl _ _ _ ha) hn hnext hd (ih ?_ ?_)
    · intro b hb
      exact hs b (left b hb)
    · intro b hb
      exact hs b (given b hb)

theorem Branch.Course.within {u v : Behavior α → Update α} {start stop : α}
    {branches : List (Behavior α × Option α)} {latest : α} {complete : Bool} {stage : Stage α}
    {result : Result α} (h : Course u start stop branches latest complete stage result)
    (hb : ∀ p ∈ branches, (u p.1).Within (v p.1)) :
    Course v start stop branches latest complete stage result := by
  induction h with
  | nil => exact .nil
  | done _ ih => exact .done (ih fun p hp => hb p (by simp [hp]))
  | waits ha hn _ ih =>
    exact .waits (hb _ List.mem_cons_self _ _ _ ha) hn (ih fun p hp => hb p (by simp [hp]))
  | ends ha hn _ ih =>
    exact .ends (hb _ List.mem_cons_self _ _ _ ha) hn (ih fun p hp => hb p (by simp [hp]))

variable {watch : Watch α}

/-- A watch that can only stop an update changes nothing that comes out of it. -/
theorem Behavior.updateUnder_within (only : ∀ b u, (watch b u).Within u) (b : Behavior α) :
    (b.updateUnder watch).Within b.update := by
  have whole : Inherited fun b : Behavior α => (b.updateUnder watch).Within b.update := by
    constructor
    case leaf =>
      intro timing effect w stage reply h
      exact only _ _ _ _ _ h
    case emit =>
      intro timing batch body _ w stage reply h
      exact only _ _ _ _ _ h
    case chain =>
      intro timing supply current offset fresh hs hc w stage reply h
      rw [updateUnder_chain] at h
      obtain ⟨first, entered, he, h⟩ := Chain.update_eq_ok.1 (only _ _ _ _ _ h)
      rw [update_chain]
      refine Chain.update_eq_ok.2 ⟨first, entered, he, ?_⟩
      split at h
      · rename_i hf
        obtain ⟨taken, after, rng, hnext, h⟩ := h
        obtain ⟨given, left, _⟩ := Supply.next_eq_ok hnext
        rw [if_pos hf]
        exact ⟨taken, after, rng, hnext, h.within (fun b hb => hs b (left b hb))
          fun b hb => hs b (given b hb)⟩
      · rename_i hf
        rw [if_neg hf]
        exact h.within hs hc
    case parallel =>
      intro timing branches hb w stage reply h
      rw [updateUnder_parallel] at h
      obtain ⟨first, entered, result, he, hr, e⟩ := Branch.update_eq_ok.1 (only _ _ _ _ _ h)
      rw [update_parallel]
      exact Branch.update_eq_ok.2 ⟨first, entered, result, he, hr.within hb, e⟩
  exact whole.all b

end ParticlePatterns
