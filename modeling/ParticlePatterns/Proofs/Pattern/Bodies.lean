import Mathlib
import ParticlePatterns.Proofs.Pattern.Instantiation
import ParticlePatterns.Proofs.Pattern.Laws

/-!
# The bodies of programs

A program that compiles generates lawful behaviors, whatever the law of generators, as long as
it does not mention what draws at random or all generators keep to the law. How deep emissions
lie within each other is limited by how often the program mentions them: every meaning comes
with such a limit, and arguments add theirs to it.
-/

set_option autoImplicit false

namespace ParticlePatterns

namespace Operator

def Random (op : Operator) : Prop :=
  op = .choice .random ∨ op = .range .random

end Operator

namespace Term

variable {α : Type}

mutual
def emissions : Term α → Nat
  | .number _ => 0
  | .symbol name => if name = Operator.emit.name then 1 else 0
  | .list elements => emissionsAll elements
def emissionsAll : List (Term α) → Nat
  | [] => 0
  | t :: rest => t.emissions + emissionsAll rest
end

theorem emissions_le_all {t : Term α} {ts : List (Term α)} (h : t ∈ ts) :
    t.emissions ≤ emissionsAll ts := by
  induction ts with
  | nil => cases h
  | cons s rest ih =>
    rw [emissionsAll]
    obtain rfl | later := List.mem_cons.1 h
    · exact Nat.le_add_right _ _
    · exact (ih later).trans (Nat.le_add_left _ _)

def randomNames : List String :=
  [Operator.name (.choice .random), Operator.name (.range .random), Bracket.random.angle]

def Draws (t : Term α) : Prop :=
  ∃ name ∈ randomNames, t.Mentions name

theorem Draws.inside {t : Term α} {ts : List (Term α)} (ht : t ∈ ts) (h : t.Draws) :
    (Term.list ts).Draws := by
  obtain ⟨name, listed, mentioned⟩ := h
  exact ⟨name, listed, .inside ht mentioned⟩

end Term

variable {α T : Type} [Scalar α] {law : (T : Type) → Gen α T → Prop} {k m n : Nat}

variable (law) in
inductive Meaning.Keeps : Nat → Meaning α → Prop
  | number {n : Nat} {gen : Gen α α} : law α gen → Keeps n (.number gen)
  | easing {n : Nat} {easing : Easing} : Keeps n (.easing easing)
  | model {n : Nat} {model : Model} : Keeps n (.model model)
  | behavior {n : Nat} {gen : Gen α (Behavior α)} :
      gen.Makes law (Behavior.Lawful (law _) n) → Keeps n (.behavior gen)
  | operator {n : Nat} {op : Operator} : (op = .emit → 1 ≤ n) →
      (op.Random → ∀ T g, law T g) → Keeps n (.operator op)
  | choice {n : Nat} {mode : Mode} {alternatives : List (Meaning α)} :
      (mode = .random → ∀ T g, law T g) → (∀ m ∈ alternatives, Keeps n m) →
      Keeps n (.choice mode alternatives)

variable (law) in
structure Argument.Keeps (n : Nat) (a : Argument α) : Prop where
  meaning : ∀ v, a.meaning.get = .ok v → v.Keeps law n
  elements : ∀ ms, a.elements = some ms → ∀ m ∈ ms, ∀ v, m.get = .ok v → v.Keeps law n
  onward : ∀ gen, a.onward.get = .ok gen → gen.Makes law (Behavior.Lawful (law _) n)

namespace Meaning

variable {v : Meaning α} {q : Query α T} {good : T → Prop}

omit [Scalar α] in
theorem Keeps.mono (h : v.Keeps law m) (hmn : m ≤ n) : v.Keeps law n := by
  induction h with
  | number keeps => exact .number keeps
  | easing => exact .easing
  | model => exact .model
  | behavior makes =>
    exact .behavior (makes.mono fun b hb => hb.mono (Nat.cast_le.2 hmn))
  | operator emits random => exact .operator (fun same => (emits same).trans hmn) random
  | choice random _ ih => exact .choice random fun m hm => ih m hm

variable (law n) in
def Query.Finds (q : Query α T) (good : T → Prop) : Prop :=
  ∀ v gen, v.Keeps law n → q.extract v = some gen → gen.Makes law good

omit [Scalar α] in
theorem numbers_finds : numbers.Finds law n fun _ => True := by
  intro v gen h found
  cases h with
  | number keeps =>
    cases found
    exact ⟨keeps, fun _ _ => trivial⟩
  | _ => cases found

omit [Scalar α] in
theorem models_finds (hl : Gen.Lawlike law) : models.Finds law n fun _ => True := by
  intro v gen h found
  cases h with
  | model =>
    cases found
    exact Gen.makes_constant hl trivial
  | _ => cases found

omit [Scalar α] in
theorem behaviors_finds : behaviors.Finds law n (Behavior.Lawful (law _) n) := by
  intro v gen h found
  cases h with
  | behavior makes =>
    cases found
    exact makes
  | _ => cases found

theorem alone_keeps (hl : Gen.Lawlike law) {op : Operator} (h : op.alone = .ok v) :
    v.Keeps law n := by
  cases op with
  | close =>
    cases h
    exact .behavior (Gen.makes_constant hl Behavior.lawful_ofEffect)
  | _ => cases h

theorem Keeps.ask_direct (h : v.Keeps law n)
    (hq : q.Finds law n good) (direct : v.ask q = q.direct v) {gen : Gen α T}
    (asked : v.ask q = .ok gen) : gen.Makes law good :=
  hq v gen h (direct_eq_ok (direct.symm.trans asked))

theorem Keeps.ask (hl : Gen.Lawlike law) (hq : q.Finds law n good) (h : v.Keeps law n) :
    ∀ {gen : Gen α T}, v.ask q = .ok gen → gen.Makes law good := by
  induction h with
  | operator =>
    intro gen asked
    rw [Meaning.ask] at asked
    split at asked
    next alone => exact hq _ _ (alone_keeps hl alone) (direct_eq_ok asked)
    · cases asked
  | choice random _ ih =>
    intro gen asked
    rw [Meaning.ask, askAll_eq_mapM] at asked
    split at asked
    next gens found =>
      cases asked
      exact Gen.makes_select hl random (forall_of_mapM found fun m hm gen => ih m hm)
    · cases asked
  | number keeps => exact (Keeps.number keeps).ask_direct hq (by simp [Meaning.ask])
  | easing => exact Keeps.easing.ask_direct hq (by simp [Meaning.ask])
  | model => exact Keeps.model.ask_direct hq (by simp [Meaning.ask])
  | behavior makes => exact (Keeps.behavior makes).ask_direct hq (by simp [Meaning.ask])

end Meaning

namespace Argument.Keeps

variable {a : Argument α}

omit [Scalar α] in
theorem mono (h : a.Keeps law m) (hmn : m ≤ n) : a.Keeps law n where
  meaning v hv := (h.meaning v hv).mono hmn
  elements ms found e he v hv := (h.elements ms found e he v hv).mono hmn
  onward gen hgen := (h.onward gen hgen).mono fun _ hb =>
    hb.mono (Nat.cast_le.2 hmn)

theorem ask (hl : Gen.Lawlike law) (h : a.Keeps law n) {q : Meaning.Query α T} {good : T → Prop}
    (hq : q.Finds law n good) {gen : Gen α T} (asked : a.ask q = .ok gen) :
    gen.Makes law good := by
  obtain ⟨v, hv, asked⟩ := bind_eq_ok.1 asked
  exact (h.meaning v hv).ask hl hq asked

theorem number (hl : Gen.Lawlike law) (h : a.Keeps law n) {gen : Gen α α}
    (asked : a.number = .ok gen) : gen.Makes law fun _ => True :=
  h.ask hl Meaning.numbers_finds asked

theorem track (hl : Gen.Lawlike law) (h : a.Keeps law n) {gen : Gen α (Behavior α)}
    (asked : a.track = .ok gen) : gen.Makes law (Behavior.Lawful (law _) n) := by
  unfold Argument.track at asked
  split at asked
  · cases asked
  next statements found =>
    obtain ⟨gens, hgens, asked⟩ := bind_eq_ok.1 asked
    cases asked
    have each : ∀ gen ∈ gens, gen.Makes law (Behavior.Lawful (law _) n) := by
      refine forall_of_mapM hgens fun m hm gen hgen => ?_
      obtain ⟨v, hv, hgen⟩ := bind_eq_ok.1 hgen
      exact (h.elements _ found m hm v hv).ask hl Meaning.behaviors_finds hgen
    exact (Gen.makes_all hl each).map hl fun bs hbs => Behavior.lawful_sequence hbs

end Argument.Keeps

namespace Operator

omit [Scalar α] in
theorem makes_ofVector (hl : Gen.Lawlike law) {make : Vec3 α → Behavior α} {x y z : Gen α α}
    {good : Behavior α → Prop} (hm : ∀ v, good (make v)) (hx : x.Makes law fun _ => True)
    (hy : y.Makes law fun _ => True) (hz : z.Makes law fun _ => True) :
    (ofVector make x y z).Makes law good :=
  hx.bind hl fun _ _ => hy.bind hl fun _ _ => hz.map hl fun _ _ => hm _

theorem emit_keeps (hl : Gen.Lawlike law) {args : List (Argument α)}
    (ha : ∀ a ∈ args, a.Keeps law n) {v : Meaning α} (h : Operator.emit.apply args = .ok v) :
    v.Keeps law (n + 1) := by
  match args, h with
  | [], h | [_], h | [_, _], h | [_, _, _], h => cases h
  | count :: times :: copies :: first :: rest, h =>
    obtain ⟨x, hx, h⟩ := bind_eq_ok.1 h
    obtain ⟨y, hy, h⟩ := bind_eq_ok.1 h
    obtain ⟨z, hz, h⟩ := bind_eq_ok.1 h
    obtain ⟨body, hbody, h⟩ := bind_eq_ok.1 h
    cases h
    have makes := (ha first (by simp)).onward body hbody
    refine .behavior (((ha count (by simp)).number hl hx).bind hl fun _ _ =>
      ((ha times (by simp)).number hl hy).bind hl fun _ _ =>
        ((ha copies (by simp)).number hl hz).mapFault hl fun _ b _ made => ?_)
    exact_mod_cast Behavior.lawful_emission makes.keeps makes.gives made

/-- All but an emission is no deeper than its arguments. -/
theorem apply_keeps_of_ne (hl : Gen.Lawlike law) {op : Operator} {args : List (Argument α)}
    (other : op ≠ .emit) (random : op.Random → ∀ T g, law T g)
    (ha : ∀ a ∈ args, a.Keeps law n) {v : Meaning α} (h : op.apply args = .ok v) :
    v.Keeps law n := by
  unfold Operator.apply at h
  split at h
  case h_1 modifier operand =>
    obtain ⟨x, hx, h⟩ := bind_eq_ok.1 h
    cases h
    exact .behavior (((ha operand (by simp)).number hl hx).map hl fun _ _ =>
      Behavior.lawful_ofEffect)
  case h_2 name =>
    obtain ⟨x, hx, h⟩ := bind_eq_ok.1 h
    cases h
    exact .behavior (((ha name (by simp)).ask hl (Meaning.models_finds hl) hx).map hl fun _ _ =>
      Behavior.lawful_ofEffect)
  case h_3 =>
    cases h
    exact .behavior (Gen.makes_constant hl Behavior.lawful_ofEffect)
  case h_4 a b c | h_5 a b c =>
    obtain ⟨x, hx, h⟩ := bind_eq_ok.1 h
    obtain ⟨y, hy, h⟩ := bind_eq_ok.1 h
    obtain ⟨z, hz, h⟩ := bind_eq_ok.1 h
    cases h
    exact .behavior (makes_ofVector hl (fun _ => Behavior.lawful_ofEffect)
      ((ha a (by simp)).number hl hx) ((ha b (by simp)).number hl hy)
      ((ha c (by simp)).number hl hz))
  case h_6 first rest =>
    obtain ⟨body, hbody, h⟩ := bind_eq_ok.1 h
    cases h
    have makes := (ha first (by simp)).onward body hbody
    refine .behavior (Gen.makes_fixed hl (f := fun s => .ok (Behavior.loop body s))
      fun s b same => ?_)
    exact Except.ok.inj same ▸ Behavior.lawful_body makes.keeps makes.gives s none
  case h_7 limit first rest =>
    obtain ⟨count, hcount, h⟩ := bind_eq_ok.1 h
    obtain ⟨body, hbody, h⟩ := bind_eq_ok.1 h
    cases h
    have makes := (ha first (by simp)).onward body hbody
    refine .behavior (((ha limit (by simp)).number hl hcount).bind hl fun x _ =>
      Gen.makes_fixed hl (f := fun s => .ok (Behavior.repetition body s (Gen.countOf x)))
        fun s b same => ?_)
    exact Except.ok.inj same ▸ Behavior.lawful_body makes.keeps makes.gives s _
  case h_8 => exact absurd rfl other
  case h_9 first rest =>
    obtain ⟨tracks, htracks, h⟩ := bind_eq_ok.1 h
    cases h
    have each := forall_of_mapM htracks fun a hmem gen => (ha a hmem).track hl
    exact .behavior ((Gen.makes_all hl each).map hl fun _ hbs => Behavior.lawful_together hbs)
  case h_10 mode first rest =>
    obtain ⟨alternatives, found, h⟩ := bind_eq_ok.1 h
    cases h
    exact .choice (fun same => random (.inl (same ▸ rfl)))
      (forall_of_mapM found fun a hmem => (ha a hmem).meaning)
  case h_11 mode low high =>
    obtain ⟨x, hx, h⟩ := bind_eq_ok.1 h
    obtain ⟨y, hy, h⟩ := bind_eq_ok.1 h
    cases h
    exact .number (Gen.range_keeps hl (fun same => random (.inr (same ▸ rfl)))
      ((ha low (by simp)).number hl hx).keeps ((ha high (by simp)).number hl hy).keeps)
  case h_12 => cases h

theorem apply_keeps (hl : Gen.Lawlike law) {op : Operator} {args : List (Argument α)}
    (emits : op = .emit → 1 ≤ k) (random : op.Random → ∀ T g, law T g)
    (ha : ∀ a ∈ args, a.Keeps law n) {v : Meaning α} (h : op.apply args = .ok v) :
    v.Keeps law (k + n) := by
  by_cases emission : op = .emit
  · have deeper := emits emission
    subst emission
    exact (emit_keeps hl ha h).mono (by omega)
  · exact (apply_keeps_of_ne hl emission random ha h).mono (Nat.le_add_left n k)

end Operator

namespace Meaning

theorem makes_lasting (hl : Gen.Lawlike law) {lifespan : Gen α α} {body : Gen α (Behavior α)}
    (h : law α lifespan) (hb : body.Makes law (Behavior.Lawful (law _) n)) :
    (lasting lifespan body).Makes law (Behavior.Lawful (law _) n) :=
  (⟨h, fun _ _ => trivial⟩ : lifespan.Makes law fun _ => True).bind hl fun _ _ =>
    hb.mapFault hl fun _ _ lawful set => lawful.setLifespan set

omit [Scalar α] in
theorem makes_eased (hl : Gen.Lawlike law) {easing : Easing} {body : Gen α (Behavior α)}
    (hb : body.Makes law (Behavior.Lawful (law _) n)) :
    (eased easing body).Makes law (Behavior.Lawful (law _) n) :=
  hb.mapFault hl fun _ _ lawful set => lawful.setEasing set

theorem makes_shownAs (hl : Gen.Lawlike law) {model : Model} {body : Gen α (Behavior α)}
    (hb : body.Makes law (Behavior.Lawful (law _) n)) :
    (shownAs model body).Makes law (Behavior.Lawful (law _) n) := by
  refine hb.map hl fun b lawful => Behavior.lawful_sequence ?_
  simp only [List.mem_cons, List.not_mem_nil, or_false, forall_eq_or_imp, forall_eq]
  exact ⟨Behavior.lawful_ofEffect, lawful⟩

theorem Keeps.withArguments (hl : Gen.Lawlike law) {args : List (Argument α)}
    (ha : ∀ a ∈ args, a.Keeps law n) {v : Meaning α} (h : v.Keeps law k) :
    ∀ {after : Meaning α}, v.withArguments args = .ok after → after.Keeps law (k + n) := by
  cases args with
  | nil =>
    intro after made
    rw [withArguments_nil] at made
    split at made
    · exact alone_keeps hl made
    · cases made
      exact h.mono (Nat.le_add_right k n)
  | cons first rest =>
    have onward : ∀ body, first.onward.get = .ok body →
        body.Makes law (Behavior.Lawful (law _) (k + n : Nat)) := fun body hbody =>
      ((ha first (by simp)).mono (Nat.le_add_left n k)).onward body hbody
    induction h with
    | operator emits random =>
      intro after made
      rw [Meaning.withArguments] at made
      exact Operator.apply_keeps hl emits random ha made
    | choice random _ ih =>
      intro after made
      rw [Meaning.withArguments, withArgumentsAll_eq_mapM] at made
      obtain ⟨curried, found, rfl⟩ := map_eq_ok.1 made
      exact .choice random (forall_of_mapM found fun m hm after => ih m hm)
    | number keeps =>
      intro after made
      rw [Meaning.withArguments] at made
      obtain ⟨body, hbody, rfl⟩ := map_eq_ok.1 made
      exact .behavior (makes_lasting hl keeps (onward body hbody))
    | easing =>
      intro after made
      rw [Meaning.withArguments] at made
      obtain ⟨body, hbody, rfl⟩ := map_eq_ok.1 made
      exact .behavior (makes_eased hl (onward body hbody))
    | model =>
      intro after made
      rw [Meaning.withArguments] at made
      obtain ⟨body, hbody, rfl⟩ := map_eq_ok.1 made
      exact .behavior (makes_shownAs hl (onward body hbody))
    | behavior =>
      intro after made
      rw [Meaning.withArguments] at made
      cases made

end Meaning

theorem Builtin.find_keeps (hl : Gen.Lawlike law) {name : String} {v : Meaning α}
    (h : Builtin.find? name = some v) (emits : name = Operator.emit.name → 1 ≤ n)
    (random : name ∈ Term.randomNames → ∀ T g, law T g) : v.Keeps law n := by
  obtain ⟨⟨key, value⟩, found, rfl⟩ := Option.map_eq_some_iff.1 h
  have named : key = name := by simpa using List.find?_some found
  have listed := List.mem_of_find?_eq_some found
  simp only [Builtin.table, List.mem_append, List.mem_map, List.mem_cons, List.not_mem_nil,
    or_false, Prod.mk.injEq] at listed
  obtain (((⟨model, _, -, rfl⟩ | ⟨easing, _, -, rfl⟩) | ⟨-, rfl⟩) | ⟨op, _, rfl, rfl⟩) |
    ⟨-, rfl⟩ | ⟨rfl, rfl⟩ := listed
  · exact .model
  · exact .easing
  · exact .behavior (Gen.makes_constant hl Behavior.lawful_ofEffect)
  · refine .operator (fun same => emits (by rw [← named, same])) fun draws => random ?_
    rw [← named]
    obtain rfl | rfl := draws <;> simp [Term.randomNames]
  · exact .number (Gen.angle_keeps hl (by simp))
  · exact .number (Gen.angle_keeps hl fun _ => random (by simp [← named, Term.randomNames]))

namespace Term

theorem asBehavior_makes (hl : Gen.Lawlike law) {first : Resolved α} {args : List (Argument α)}
    {gen : Gen α (Behavior α)} (hf : ∀ v, first = .ok v → v.Keeps law k)
    (ha : ∀ a ∈ args, a.Keeps law n) (h : asBehavior first args = .ok gen) :
    gen.Makes law (Behavior.Lawful (law _) (k + n : Nat)) := by
  cases args with
  | nil =>
    obtain ⟨v, hv, asked⟩ := bind_eq_ok.1 h
    exact ((hf v hv).mono (Nat.le_add_right k n)).ask hl Meaning.behaviors_finds asked
  | cons a rest =>
    obtain ⟨v, hv, h⟩ := bind_eq_ok.1 h
    obtain ⟨after, made, asked⟩ := bind_eq_ok.1 h
    exact ((hf v hv).withArguments hl ha made).ask hl Meaning.behaviors_finds asked

variable (law n) in
def Keeps (t : Term α) : Prop :=
  (∀ v, t.meaning = .ok v → v.Keeps law n) ∧
    ∀ ms, t.elementMeanings = some ms → ∀ m ∈ ms, ∀ v, m.get = .ok v → v.Keeps law n

theorem arguments_keep (hl : Gen.Lawlike law) {ts : List (Term α)}
    (h : ∀ t ∈ ts, t.Keeps law t.emissions) :
    ∀ a ∈ arguments ts, a.Keeps law (emissionsAll ts) := by
  induction ts with
  | nil => simp [arguments]
  | cons t rest ih =>
    obtain ⟨⟨meaning, elements⟩, later⟩ := List.forall_mem_cons.1 h
    have within : t.emissions ≤ emissionsAll (t :: rest) := emissions_le_all List.mem_cons_self
    have behind : emissionsAll rest ≤ emissionsAll (t :: rest) := Nat.le_add_left _ _
    rw [arguments]
    refine List.forall_mem_cons.2 ⟨⟨fun v hv => (meaning v hv).mono within,
      fun ms found m hm v hv => (elements ms found m hm v hv).mono within, fun gen hgen => ?_⟩,
      fun a ha => (ih later a ha).mono behind⟩
    exact asBehavior_makes hl meaning (ih later) hgen

theorem keeps (hl : Gen.Lawlike law) {t : Term α} (random : t.Draws → ∀ T g, law T g) :
    t.Keeps law t.emissions := by
  induction t with
  | number value =>
    refine ⟨fun v h => ?_, fun ms h => ?_⟩
    · cases h
      exact .number (hl.fixed α fun _ => .ok value)
    · cases h
  | symbol name =>
    refine ⟨fun v h => ?_, fun ms h => ?_⟩
    · rw [meaning] at h
      split at h
      next found =>
        cases h
        refine Builtin.find_keeps hl found (fun same => ?_) fun listed =>
          random ⟨name, listed, .here⟩
        rw [emissions, if_pos same]
      · cases h
    · cases h
  | list ts ih =>
    have parts : ∀ t ∈ ts, t.Keeps law t.emissions :=
      fun t ht => ih t ht fun draws => random (draws.inside ht)
    refine ⟨fun v h => ?_, fun ms h => ?_⟩
    · cases ts with
      | nil =>
        rw [meaning] at h
        cases h
      | cons head args =>
        rw [meaning] at h
        split at h
        next found =>
          exact ((parts head (by simp)).1 _ found).withArguments hl
            (arguments_keep hl fun t ht => parts t (List.mem_cons_of_mem _ ht)) h
        · cases h
    · rw [elementMeanings] at h
      cases h
      rw [meanings_eq_map]
      simp only [List.mem_map]
      rintro _ ⟨t, ht, rfl⟩ v hv
      exact ((parts t ht).1 v hv).mono (emissions_le_all ht)

theorem behavior_makes (hl : Gen.Lawlike law) {t : Term α} {gen : Gen α (Behavior α)}
    (random : t.Draws → ∀ T g, law T g) (h : t.behavior = .ok gen) :
    gen.Makes law (Behavior.Lawful (law _) t.emissions) := by
  obtain ⟨v, hv, asked⟩ := bind_eq_ok.1 h
  exact ((keeps hl random).1 v hv).ask hl Meaning.behaviors_finds asked

end Term

namespace Program

def emissions {α : Type} (p : Program α) : Nat :=
  Term.emissionsAll p

/-- What a program generates is as lawful as what it is put together from. -/
theorem compile_makes (hl : Gen.Lawlike law) {p : Program α} {gen : Gen α (Behavior α)}
    (random : (Term.list p).Draws → ∀ T g, law T g) (h : p.compile = .ok gen) :
    gen.Makes law (Behavior.Lawful (law _) p.emissions) := by
  have statement : ∀ t ∈ p, ∀ gen, t.behavior = .ok gen →
      gen.Makes law (Behavior.Lawful (law _) p.emissions) := fun t ht gen hgen =>
    (Term.behavior_makes hl (fun draws => random (draws.inside ht)) hgen).mono fun b lawful =>
      lawful.mono (Nat.cast_le.2 (Term.emissions_le_all ht))
  unfold Program.compile at h
  split at h
  next only => exact statement only (by simp) gen h
  · obtain ⟨gens, hgens, h⟩ := bind_eq_ok.1 h
    cases h
    exact (Gen.makes_all hl (forall_of_mapM hgens statement)).map hl fun bs hbs =>
      Behavior.lawful_sequence hbs

end Program

end ParticlePatterns
