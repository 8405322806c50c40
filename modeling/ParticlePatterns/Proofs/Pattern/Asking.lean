import ParticlePatterns.Pattern.Compile
import ParticlePatterns.Proofs.Pattern.Yields

/-!
# The batches that a program asks for

An emission asks for a batch of as many children as its first three arguments come to. It may
stand anywhere inside a program, and what is applied to its arguments may also be a choice that
has it among its alternatives. A program that does not mention emissions asks for no batch.
-/

set_option autoImplicit false

namespace ParticlePatterns

variable {α : Type} [Scalar α]

def Fault.OfExcess (asked : Batch → Prop) (fault : Fault α) : Prop :=
  ∃ batch, asked batch ∧ ¬batch.Fits ∧ batch.fault? = some fault

def Argument.Counts (a : Argument α) (n : Nat) : Prop :=
  ∃ gen x, a.number = .ok gen ∧ gen.Gives x ∧ Gen.countOf x = n

def Argument.Ask (args : List (Argument α)) (batch : Batch) : Prop :=
  ∃ count times copies rest, args = count :: times :: copies :: rest ∧
    count.Counts batch.count ∧ times.Counts batch.times ∧ copies.Counts batch.copies

namespace Argument

theorem counts_constant {a : Argument α} {x : α} {n : Nat}
    (ha : a.meaning.get = .ok (.number (.constant x))) (hn : a.Counts n) : n = Gen.countOf x := by
  obtain ⟨gen, _, found, ⟨s, r, after, made⟩, rfl⟩ := hn
  rw [number, ask, ha] at found
  cases found
  cases made
  rfl

theorem Ask.three_le {args : List (Term α)} {batch : Batch} (h : Ask (Term.arguments args) batch) :
    3 ≤ args.length := by
  obtain ⟨count, times, copies, rest, listed, -⟩ := h
  rw [← Term.arguments_terms args, listed]
  simp

theorem ask_constants {x y z : α} {ts : List (Term α)} {batch : Batch}
    (h : Ask (Term.arguments (.number x :: .number y :: .number z :: ts)) batch) :
    batch = ⟨Gen.countOf x, Gen.countOf y, Gen.countOf z⟩ := by
  obtain ⟨count, times, copies, rest, listed, counted, timed, copied⟩ := h
  cases listed
  obtain ⟨n, t, c⟩ := batch
  cases counts_constant rfl counted
  cases counts_constant rfl timed
  cases counts_constant rfl copied
  rfl

end Argument

namespace Meaning

inductive Offers (op : Operator) : Meaning α → Prop
  | here : Offers op (.operator op)
  | among {mode : Mode} {alternatives : List (Meaning α)} {m : Meaning α} : m ∈ alternatives →
      Offers op m → Offers op (.choice mode alternatives)

end Meaning

namespace Term

inductive Mentions (name : String) : Term α → Prop
  | here : Mentions name (.symbol name)
  | inside {t : Term α} {ts : List (Term α)} : t ∈ ts → Mentions name t → Mentions name (.list ts)

inductive AppliedTo (head : Term α) (args : List (Term α)) : Term α → Prop
  | here {ts : List (Term α)} : head :: args <:+ ts → AppliedTo head args (.list ts)
  | inside {t : Term α} {ts : List (Term α)} : t ∈ ts → AppliedTo head args t →
      AppliedTo head args (.list ts)

def Asks (t : Term α) (batch : Batch) : Prop :=
  ∃ (head : Term α) (args : List (Term α)) (m : Meaning α), head.AppliedTo args t ∧
    head.meaning = .ok m ∧ m.Offers .emit ∧ Argument.Ask (arguments args) batch

def Excess (t : Term α) (fault : Fault α) : Prop :=
  fault.OfExcess t.Asks

variable {t : Term α} {ts : List (Term α)} {batch : Batch} {fault : Fault α}

theorem Asks.inside (ht : t ∈ ts) (h : t.Asks batch) : (Term.list ts).Asks batch := by
  obtain ⟨head, args, m, applied, rest⟩ := h
  exact ⟨head, args, m, .inside ht applied, rest⟩

theorem Excess.inside (ht : t ∈ ts) (h : t.Excess fault) : (Term.list ts).Excess fault := by
  obtain ⟨batch, asks, refused⟩ := h
  exact ⟨batch, asks.inside ht, refused⟩

end Term

variable {op other : Operator} {args : List (Argument α)} {m after : Meaning α}

theorem Operator.offers_of_apply (h : other.apply args = .ok after) (ho : after.Offers op) :
    ∃ a ∈ args, ∃ v, a.meaning.get = .ok v ∧ v.Offers op := by
  unfold Operator.apply at h
  split at h
  case h_10 mode first rest =>
    obtain ⟨alternatives, found, h⟩ := bind_eq_ok.1 h
    cases h
    cases ho with
    | among hm offers =>
      have listed : ∀ v ∈ alternatives, v.Offers op →
          ∃ a ∈ first :: rest, ∃ v, a.meaning.get = .ok v ∧ v.Offers op :=
        forall_of_mapM found fun a ha v hv offers => ⟨a, ha, v, hv, offers⟩
      exact listed _ hm offers
  all_goals
    repeat obtain ⟨_, _, h⟩ := bind_eq_ok.1 h
    cases h
  all_goals cases ho

namespace Meaning

/-- What offers an operator once it is applied does so itself, or an argument does. -/
theorem offers_of_withArguments (ho : after.Offers op) :
    ∀ {m : Meaning α}, m.withArguments args = .ok after →
      m.Offers op ∨ ∃ a ∈ args, ∃ v, a.meaning.get = .ok v ∧ v.Offers op := by
  cases args with
  | nil =>
    intro m made
    rw [withArguments_nil] at made
    split at made
    · unfold Operator.alone at made
      split at made
      · cases made
        cases ho
      · cases made
    · cases made
      exact .inl ho
  | cons first rest =>
    have applied : ∀ {other : Operator} {after : Meaning α}, after.Offers op →
        (operator other).withArguments (first :: rest) = .ok after →
        ∃ a ∈ first :: rest, ∃ v, a.meaning.get = .ok v ∧ v.Offers op := by
      intro other after ho made
      rw [withArguments] at made
      exact Operator.offers_of_apply made ho
    induction ho with
    | here =>
      intro m made
      cases m with
      | operator other => exact .inr (applied .here made)
      | behavior => cases made
      | _ =>
        rw [withArguments] at made
        obtain ⟨_, -, made⟩ := map_eq_ok.1 made
        cases made
    | @among mode curried m' hm offers ih =>
      intro m made
      cases m with
      | operator other => exact .inr (applied (.among hm offers) made)
      | choice mode' alternatives =>
        rw [withArguments, withArgumentsAll_eq_mapM] at made
        obtain ⟨_, found, same⟩ := map_eq_ok.1 made
        cases same
        have origin : ∀ v ∈ curried, ∃ alternative ∈ alternatives,
            alternative.withArguments (first :: rest) = .ok v :=
          forall_of_mapM found fun alternative ha v hv => ⟨alternative, ha, hv⟩
        obtain ⟨alternative, ha, curries⟩ := origin m' hm
        exact (ih curries).imp_left (.among ha)
      | behavior => cases made
      | _ =>
        rw [withArguments] at made
        obtain ⟨_, -, made⟩ := map_eq_ok.1 made
        cases made

end Meaning

theorem Builtin.find_offers {name : String} (h : Builtin.find? name = some m)
    (ho : m.Offers op) : name = op.name := by
  obtain ⟨⟨key, value⟩, found, rfl⟩ := Option.map_eq_some_iff.1 h
  have named : key = name := by simpa using List.find?_some found
  have listed := List.mem_of_find?_eq_some found
  simp only [Builtin.table, List.mem_append, List.mem_map, List.mem_cons, List.not_mem_nil,
    or_false, Prod.mk.injEq] at listed
  obtain (((⟨_, _, -, rfl⟩ | ⟨_, _, -, rfl⟩) | ⟨-, rfl⟩) | ⟨op, _, keyed, rfl⟩) |
    ⟨-, rfl⟩ | ⟨-, rfl⟩ := listed
  case inl.inr =>
    cases ho
    exact named.symm.trans keyed.symm
  all_goals cases ho

namespace Term

theorem mentions_of_offers {t : Term α} :
    ∀ {m : Meaning α}, t.meaning = .ok m → m.Offers op → t.Mentions op.name := by
  induction t with
  | number value =>
    intro m h ho
    cases h
    cases ho
  | symbol name =>
    intro m h ho
    rw [meaning] at h
    split at h
    next found =>
      cases h
      rw [Builtin.find_offers found ho]
      exact .here
    · cases h
  | list ts ih =>
    intro m h ho
    cases ts with
    | nil =>
      rw [meaning] at h
      cases h
    | cons head args =>
      rw [meaning] at h
      split at h
      next found =>
        obtain itself | ⟨a, ha, v, hv, offers⟩ := Meaning.offers_of_withArguments ho h
        · exact .inside (by simp) (ih head (by simp) found itself)
        · obtain ⟨t, ht, same⟩ := meaning_of_mem_arguments ha
          exact .inside (List.mem_cons_of_mem _ ht)
            (ih t (List.mem_cons_of_mem _ ht) (same ▸ hv) offers)
      · cases h

section Places

variable {head t : Term α} {args : List (Term α)}

omit [Scalar α] in
@[simp]
theorem appliedTo_list {ts : List (Term α)} : head.AppliedTo args (.list ts) ↔
    head :: args <:+ ts ∨ ∃ t ∈ ts, head.AppliedTo args t := by
  constructor
  · intro h
    cases h with
    | here suffix => exact .inl suffix
    | inside ht applied => exact .inr ⟨_, ht, applied⟩
  · rintro (suffix | ⟨t, ht, applied⟩)
    · exact .here suffix
    · exact .inside ht applied

omit [Scalar α] in
@[simp]
theorem not_appliedTo_symbol {name : String} : ¬head.AppliedTo args (.symbol name) :=
  fun h => by cases h

omit [Scalar α] in
@[simp]
theorem not_appliedTo_number {value : α} : ¬head.AppliedTo args (.number value) :=
  fun h => by cases h

omit [Scalar α] in
theorem AppliedTo.mentions {name : String} (h : head.AppliedTo args t)
    (hm : head.Mentions name) : t.Mentions name := by
  induction h with
  | here suffix => exact .inside (suffix.subset (by simp)) hm
  | inside ht _ ih => exact .inside ht ih

theorem Asks.mentions {batch : Batch} (h : t.Asks batch) :
    t.Mentions Operator.emit.name := by
  obtain ⟨head, args, m, applied, meant, offers, -⟩ := h
  exact applied.mentions (mentions_of_offers meant offers)

end Places

end Term

end ParticlePatterns
