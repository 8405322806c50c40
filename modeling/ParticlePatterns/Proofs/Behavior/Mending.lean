import Mathlib
import ParticlePatterns.Proofs.Behavior.Translation

/-!
# Mended behaviors

To mend a behavior is to have its bodies make a pause wherever they would fail. A mended
behavior does what the behavior does, unless one of its bodies fails. Since mended bodies always
make something, fresh behaviors are built once they are mended, and keep to the window protocol.
-/

set_option autoImplicit false

namespace ParticlePatterns

variable {α : Type}

def Gen.Contained {T : Type} (flaw : Fault α → Prop) (g : Gen α T) : Prop :=
  ∀ fault, g.Fails fault → flaw fault

variable [Scalar α]

mutual
def Behavior.mended : Behavior α → Behavior α
  | .leaf timing effect => .leaf timing effect
  | .emit timing batch body =>
      .emit timing batch fun s r => .ok (Behavior.mendedDrawn r (body s r))
  | .chain timing supply current offset fresh =>
      .chain timing (Supply.mended supply) (Behavior.mendedSome current) offset fresh
  | .parallel timing branches => .parallel timing (Behavior.mendedBranches branches)
def Supply.mended : Supply α → Supply α
  | .body body sibling remaining =>
      .body (fun s r => .ok (Behavior.mendedDrawn r (body s r))) sibling remaining
  | .list rest => .list (Behavior.mendedAll rest)
def Behavior.mendedSome : Option (Behavior α) → Option (Behavior α)
  | none => none
  | some b => some b.mended
def Behavior.mendedAll : List (Behavior α) → List (Behavior α)
  | [] => []
  | b :: rest => b.mended :: Behavior.mendedAll rest
def Behavior.mendedBranches : List (Behavior α × Option α) → List (Behavior α × Option α)
  | [] => []
  | (b, time) :: rest => (b.mended, time) :: Behavior.mendedBranches rest
def Behavior.mendedDrawn (r : Rng) : Except (Fault α) (Behavior α × Rng) → Behavior α × Rng
  | .error _ => (.pause, r)
  | .ok (b, after) => (b.mended, after)
end

def Gen.mended (g : Gen α (Behavior α)) : Gen α (Behavior α) :=
  fun s r => .ok (Behavior.mendedDrawn r (g s r))

theorem Behavior.mendedSome_eq_map (b : Option (Behavior α)) :
    mendedSome b = b.map mended := by
  cases b <;> rfl

theorem Behavior.mendedAll_eq_map (bs : List (Behavior α)) : mendedAll bs = bs.map mended := by
  induction bs with
  | nil => rfl
  | cons b bs ih => rw [mendedAll, ih, List.map_cons]

theorem Behavior.mendedBranches_eq_map (bs : List (Behavior α × Option α)) :
    mendedBranches bs = bs.map fun p => (p.1.mended, p.2) := by
  induction bs with
  | nil => rfl
  | cons b bs ih => rw [mendedBranches, ih, List.map_cons]

def Translation.mending : Translation α :=
  ⟨Behavior.mended, Gen.mended, id⟩

theorem Translation.mending_faithful {flaw : Fault α → Prop} :
    (mending : Translation α).Faithful (Gen.Contained flaw) flaw where
  leaf _ _ := rfl
  emit _ _ _ := rfl
  chain timing supply current offset fresh := by
    have supplied : Supply.mended supply = mending.supply supply := by
      cases supply with
      | body => rfl
      | list rest => exact congrArg Supply.list (Behavior.mendedAll_eq_map rest)
    rw [← supplied]
    show Behavior.mended _ = _
    rw [Behavior.mended, Behavior.mendedSome_eq_map]
    rfl
  parallel timing branches :=
    congrArg (Behavior.parallel timing) (Behavior.mendedBranches_eq_map branches)
  made body contained s r := by
    cases made : body s r with
    | ok drawn =>
      show Except.ok (Behavior.mendedDrawn r (body s r)) = _
      rw [made]
      rfl
    | error fault => exact .inl (contained fault ⟨s, r, made⟩)

theorem Gen.gives_mended {g : Gen α (Behavior α)} {b : Behavior α} (h : g.mended.Gives b) :
    b = .pause ∨ ∃ c, g.Gives c ∧ b = c.mended := by
  obtain ⟨s, r, after, made⟩ := h
  rw [Gen.mended] at made
  cases drawn : g s r with
  | ok result =>
    rw [drawn] at made
    cases made
    exact .inr ⟨result.1, ⟨s, r, result.2, drawn⟩, rfl⟩
  | error fault =>
    rw [drawn] at made
    cases made
    exact .inl rfl

namespace Behavior.Pristine

variable [Scalar.Signed α] {flaw : Fault α → Prop} {b : Behavior α}

/-- Once it is mended, nothing about a fresh behavior can fail any more. -/
theorem mended (h : b.Pristine flaw) : b.mended.Pristine fun _ => False := by
  have sure : ∀ body : Gen α (Behavior α), ∀ fault, body.mended.Fails fault → False := by
    rintro body fault ⟨_, _, failed⟩
    cases failed
  have drawn : ∀ body : Gen α (Behavior α),
      (∀ c, body.Gives c → c.mended.Pristine fun _ => False) →
      ∀ c, body.mended.Gives c → c.Pristine fun _ => False := by
    intro body made c hc
    obtain rfl | ⟨d, hd, rfl⟩ := Gen.gives_mended hc
    · exact pristine_ofEffect trivial
    · exact made d hd
  induction h with
  | leaf ht unfired => exact .leaf ht unfired
  | @emit _ _ body ht room _ _ ih => exact .emit ht room (drawn body ih) (sure body)
  | @body _ body _ _ ht _ _ ih => exact .body ht (drawn body ih) (sure body)
  | @sequence _ bs ht _ ih =>
    rw [Behavior.mended, Supply.mended, mendedAll_eq_map, mendedSome]
    exact .sequence ht (List.forall_mem_map.2 ih)
  | @together _ branches ht waiting _ ih =>
    rw [Behavior.mended, mendedBranches_eq_map]
    exact .together ht (List.forall_mem_map.2 waiting) (List.forall_mem_map.2 ih)

end Behavior.Pristine

end ParticlePatterns
