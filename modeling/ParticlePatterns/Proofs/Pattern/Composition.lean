import Mathlib
import ParticlePatterns.Proofs.Pattern.Bodies
import ParticlePatterns.Proofs.Pattern.Currying
import ParticlePatterns.Proofs.Term.Storage

/-!
# What programs are composed of

All behaviors that a program generates are put together in a few ways, and every number in them is
written in the program, or varied between such numbers, or an angle. So what holds of the written
numbers and is kept by these ways holds of whatever comes out of the program.
-/

set_option autoImplicit false

namespace ParticlePatterns

open Gen (lawlike_trivial)

variable {α T : Type} [Scalar α]

inductive Varied (written : α → Prop) : α → Prop
  | written {x : α} : written x → Varied written x
  | spread {a b : α} (s : Sibling) : Varied written a → Varied written b →
      Varied written (Scalar.lerp a b (Gen.share s))
  | drawn {a b : α} (r : Rng) : Varied written a → Varied written b →
      Varied written (Scalar.lerp a b (r.unit : α × Rng).1)
  | bearing (s : Sibling) : Varied written (Gen.bearing s)
  | turn (r : Rng) : Varied written (r.between 0 360).1

def Effect.Uses (number : α → Prop) : Effect α → Prop
  | .pause => True
  | .modify _ _ operand _ => number operand
  | .switch _ _ => True
  | .translate v => number v.x ∧ number v.y ∧ number v.z
  | .rotate v => number v.x ∧ number v.y ∧ number v.z

inductive Behavior.Composed (number : α → Prop) : Behavior α → Prop
  | effect {e : Effect α} : e.Uses number → Composed number (.ofEffect e)
  | emission {batch : Batch} {body : Gen α (Behavior α)} {b : Behavior α} :
      (∀ c, body.Gives c → Composed number c) → Behavior.emission batch body = .ok b →
      Composed number b
  | body {body : Gen α (Behavior α)} {sibling : Sibling} {remaining : Option Nat} :
      (∀ c, body.Gives c → Composed number c) →
      Composed number (.ofSupply (.body body sibling remaining))
  | sequence {bs : List (Behavior α)} : (∀ b ∈ bs, Composed number b) →
      Composed number (.sequence bs)
  | together {bs : List (Behavior α)} : (∀ b ∈ bs, Composed number b) →
      Composed number (.together bs)
  | lasting {b c : Behavior α} {x : α} : Composed number b → number x →
      b.setLifespan (Scalar.max x 0) = .ok c → Composed number c
  | eased {b c : Behavior α} {easing : Easing} : Composed number b → b.setEasing easing = .ok c →
      Composed number c

omit [Scalar α] in
theorem Effect.Uses.mono {number number' : α → Prop} {e : Effect α} (h : e.Uses number)
    (hn : ∀ x, number x → number' x) : e.Uses number' := by
  match e, h with
  | .pause, _ => trivial
  | .modify _ _ operand _, h => exact hn operand h
  | .switch _ _, _ => trivial
  | .translate _, ⟨hx, hy, hz⟩ => exact ⟨hn _ hx, hn _ hy, hn _ hz⟩
  | .rotate _, ⟨hx, hy, hz⟩ => exact ⟨hn _ hx, hn _ hy, hn _ hz⟩

theorem Behavior.Composed.mono {number number' : α → Prop} {b : Behavior α}
    (h : b.Composed number) (hn : ∀ x, number x → number' x) : b.Composed number' := by
  induction h with
  | effect uses => exact .effect (uses.mono hn)
  | emission _ made ih => exact .emission ih made
  | body _ ih => exact .body ih
  | sequence _ ih => exact .sequence ih
  | together _ ih => exact .together ih
  | lasting _ hx set ih => exact .lasting ih (hn _ hx) set
  | eased _ set ih => exact .eased ih set

namespace Gen

abbrev Only (good : T → Prop) (g : Gen α T) : Prop :=
  g.Makes (fun _ _ => True) good

variable {written : α → Prop} {mode : Mode}

theorem only_range {low high : Gen α α} (hl : low.Only (Varied written))
    (hh : high.Only (Varied written)) : (range mode low high).Only (Varied written) := by
  refine hl.bind lawlike_trivial fun a ha => hh.bind lawlike_trivial fun b hb => ⟨trivial, ?_⟩
  rintro v ⟨s, r, after, made⟩
  cases mode with
  | each =>
    cases made
    exact .spread s ha hb
  | random =>
    cases made
    exact .drawn r ha hb

theorem only_angle : (angle mode).Only (Varied written) := by
  refine ⟨trivial, ?_⟩
  rintro v ⟨s, r, after, made⟩
  cases mode with
  | each =>
    cases made
    exact .bearing s
  | random =>
    cases made
    exact .turn r

end Gen

inductive Meaning.Composed (written : α → Prop) : Meaning α → Prop
  | number {gen : Gen α α} : gen.Only (Varied written) → Composed written (.number gen)
  | easing {easing : Easing} : Composed written (.easing easing)
  | model {model : Model} : Composed written (.model model)
  | behavior {gen : Gen α (Behavior α)} : gen.Only (Behavior.Composed (Varied written)) →
      Composed written (.behavior gen)
  | operator {op : Operator} : Composed written (.operator op)
  | choice {mode : Mode} {alternatives : List (Meaning α)} :
      (∀ m ∈ alternatives, Composed written m) → Composed written (.choice mode alternatives)

structure Argument.Composed (written : α → Prop) (a : Argument α) : Prop where
  meaning : ∀ m, a.meaning.get = .ok m → m.Composed written
  elements : ∀ ms, a.elements = some ms → ∀ m ∈ ms, ∀ v, m.get = .ok v → v.Composed written
  onward : ∀ gen, a.onward.get = .ok gen → gen.Only (Behavior.Composed (Varied written))

variable {written : α → Prop} {m : Meaning α} {args : List (Argument α)}

namespace Meaning

variable {q : Query α T} {good : T → Prop}

variable (written) in
def Query.Only (q : Query α T) (good : T → Prop) : Prop :=
  ∀ m gen, m.Composed written → q.extract m = some gen → gen.Only good

theorem numbers_only : numbers.Only written (Varied written) := by
  intro m gen h found
  cases h with
  | number only =>
    cases found
    exact only
  | _ => cases found

theorem models_only : models.Only written fun _ => True := by
  intro m gen h found
  cases h with
  | model =>
    cases found
    exact Gen.makes_constant lawlike_trivial trivial
  | _ => cases found

theorem behaviors_only : behaviors.Only written (Behavior.Composed (Varied written)) := by
  intro m gen h found
  cases h with
  | behavior only =>
    cases found
    exact only
  | _ => cases found

theorem alone_composed {op : Operator} (h : op.alone = .ok m) : m.Composed written := by
  cases op with
  | close =>
    cases h
    exact .behavior (Gen.makes_constant lawlike_trivial (.effect trivial))
  | _ => cases h

theorem Composed.ask (hq : q.Only written good) (h : m.Composed written) :
    ∀ {gen : Gen α T}, m.ask q = .ok gen → gen.Only good := by
  have direct : ∀ {m : Meaning α} {gen : Gen α T}, m.Composed written → q.direct m = .ok gen →
      gen.Only good := fun composed asked => hq _ _ composed (direct_eq_ok asked)
  induction h with
  | operator =>
    intro gen asked
    rw [Meaning.ask] at asked
    split at asked
    next alone => exact direct (alone_composed alone) asked
    · cases asked
  | choice _ ih =>
    intro gen asked
    rw [ask_choice] at asked
    obtain ⟨gens, found, rfl⟩ := map_eq_ok.1 asked
    exact Gen.makes_select lawlike_trivial (fun _ _ _ => trivial)
      (forall_of_mapM found fun m hm gen => ih m hm)
  | number only =>
    exact fun asked => direct (.number only) (by simpa only [Meaning.ask] using asked)
  | easing => exact fun asked => direct .easing (by simpa only [Meaning.ask] using asked)
  | model => exact fun asked => direct .model (by simpa only [Meaning.ask] using asked)
  | behavior only =>
    exact fun asked => direct (.behavior only) (by simpa only [Meaning.ask] using asked)

end Meaning

namespace Argument.Composed

variable {a : Argument α}

theorem ask {q : Meaning.Query α T} {good : T → Prop} (h : a.Composed written)
    (hq : q.Only written good) {gen : Gen α T} (asked : a.ask q = .ok gen) : gen.Only good := by
  obtain ⟨m, hm, asked⟩ := bind_eq_ok.1 asked
  exact (h.meaning m hm).ask hq asked

theorem number (h : a.Composed written) {gen : Gen α α} (asked : a.number = .ok gen) :
    gen.Only (Varied written) :=
  h.ask Meaning.numbers_only asked

theorem track (h : a.Composed written) {gen : Gen α (Behavior α)} (asked : a.track = .ok gen) :
    gen.Only (Behavior.Composed (Varied written)) := by
  unfold Argument.track at asked
  split at asked
  · cases asked
  next statements found =>
    obtain ⟨gens, hgens, asked⟩ := bind_eq_ok.1 asked
    cases asked
    have each : ∀ gen ∈ gens, gen.Only (Behavior.Composed (Varied written)) := by
      refine forall_of_mapM hgens fun m hm gen hgen => ?_
      obtain ⟨v, hv, hgen⟩ := bind_eq_ok.1 hgen
      exact (h.elements _ found m hm v hv).ask Meaning.behaviors_only hgen
    exact (Gen.makes_all lawlike_trivial each).map lawlike_trivial fun _ hbs => .sequence hbs

end Argument.Composed

namespace Operator

theorem only_ofVector {make : Vec3 α → Behavior α} {x y z : Gen α α} {good : Behavior α → Prop}
    (hx : x.Only (Varied written)) (hy : y.Only (Varied written)) (hz : z.Only (Varied written))
    (hm : ∀ v, Varied written v.x ∧ Varied written v.y ∧ Varied written v.z → good (make v)) :
    (ofVector make x y z).Only good :=
  hx.bind lawlike_trivial fun _ hx => hy.bind lawlike_trivial fun _ hy =>
    hz.map lawlike_trivial fun _ hz => hm _ ⟨hx, hy, hz⟩

theorem apply_composed {op : Operator} (ha : ∀ a ∈ args, a.Composed written)
    (h : op.apply args = .ok m) : m.Composed written := by
  unfold Operator.apply at h
  split at h
  case h_1 modifier operand =>
    obtain ⟨x, hx, h⟩ := bind_eq_ok.1 h
    cases h
    exact .behavior (((ha operand (by simp)).number hx).map lawlike_trivial fun _ hv => .effect hv)
  case h_2 name =>
    obtain ⟨x, hx, h⟩ := bind_eq_ok.1 h
    cases h
    exact .behavior (((ha name (by simp)).ask Meaning.models_only hx).map lawlike_trivial
      fun _ _ => .effect trivial)
  case h_3 =>
    cases h
    exact .behavior (Gen.makes_constant lawlike_trivial (.effect trivial))
  case h_4 a b c | h_5 a b c =>
    obtain ⟨x, hx, h⟩ := bind_eq_ok.1 h
    obtain ⟨y, hy, h⟩ := bind_eq_ok.1 h
    obtain ⟨z, hz, h⟩ := bind_eq_ok.1 h
    cases h
    exact .behavior (only_ofVector ((ha a (by simp)).number hx) ((ha b (by simp)).number hy)
      ((ha c (by simp)).number hz) fun _ each => .effect each)
  case h_6 first rest =>
    obtain ⟨body, hbody, h⟩ := bind_eq_ok.1 h
    cases h
    have only := (ha first (by simp)).onward body hbody
    refine .behavior (Gen.makes_fixed lawlike_trivial (f := fun s => .ok (Behavior.loop body s))
      fun s b same => ?_)
    exact Except.ok.inj same ▸ .body only.gives
  case h_7 limit first rest =>
    obtain ⟨count, hcount, h⟩ := bind_eq_ok.1 h
    obtain ⟨body, hbody, h⟩ := bind_eq_ok.1 h
    cases h
    have only := (ha first (by simp)).onward body hbody
    refine .behavior (((ha limit (by simp)).number hcount).bind lawlike_trivial fun x _ =>
      Gen.makes_fixed lawlike_trivial
        (f := fun s => .ok (Behavior.repetition body s (Gen.countOf x))) fun s b same => ?_)
    exact Except.ok.inj same ▸ .body only.gives
  case h_8 count times copies first rest =>
    obtain ⟨x, hx, h⟩ := bind_eq_ok.1 h
    obtain ⟨y, hy, h⟩ := bind_eq_ok.1 h
    obtain ⟨z, hz, h⟩ := bind_eq_ok.1 h
    obtain ⟨body, hbody, h⟩ := bind_eq_ok.1 h
    cases h
    have only := (ha first (by simp)).onward body hbody
    exact .behavior (((ha count (by simp)).number hx).bind lawlike_trivial fun _ _ =>
      ((ha times (by simp)).number hy).bind lawlike_trivial fun _ _ =>
        ((ha copies (by simp)).number hz).mapFault lawlike_trivial fun _ b _ made =>
          .emission only.gives made)
  case h_9 first rest =>
    obtain ⟨tracks, htracks, h⟩ := bind_eq_ok.1 h
    cases h
    have each := forall_of_mapM htracks fun a hmem gen => (ha a hmem).track
    exact .behavior ((Gen.makes_all lawlike_trivial each).map lawlike_trivial fun _ hbs =>
      .together hbs)
  case h_10 mode first rest =>
    obtain ⟨alternatives, found, h⟩ := bind_eq_ok.1 h
    cases h
    exact .choice (forall_of_mapM found fun a hmem => (ha a hmem).meaning)
  case h_11 mode low high =>
    obtain ⟨x, hx, h⟩ := bind_eq_ok.1 h
    obtain ⟨y, hy, h⟩ := bind_eq_ok.1 h
    cases h
    exact .number (Gen.only_range ((ha low (by simp)).number hx) ((ha high (by simp)).number hy))
  case h_12 => cases h

end Operator

namespace Meaning

theorem only_shownAs {model : Model} {body : Gen α (Behavior α)}
    (hb : body.Only (Behavior.Composed (Varied written))) :
    (shownAs model body).Only (Behavior.Composed (Varied written)) := by
  refine hb.map lawlike_trivial fun b composed => .sequence ?_
  simp only [List.mem_cons, List.not_mem_nil, or_false, forall_eq_or_imp, forall_eq]
  exact ⟨.effect trivial, composed⟩

theorem Composed.withArguments (ha : ∀ a ∈ args, a.Composed written) (h : m.Composed written) :
    ∀ {after : Meaning α}, m.withArguments args = .ok after → after.Composed written := by
  cases args with
  | nil =>
    intro after made
    rw [withArguments_nil] at made
    split at made
    · exact alone_composed made
    · cases made
      exact h
  | cons first rest =>
    have onward := (ha first (by simp)).onward
    induction h with
    | operator =>
      intro after made
      rw [Meaning.withArguments] at made
      exact Operator.apply_composed ha made
    | choice _ ih =>
      intro after made
      rw [Meaning.withArguments, withArgumentsAll_eq_mapM] at made
      obtain ⟨curried, found, rfl⟩ := map_eq_ok.1 made
      exact .choice (forall_of_mapM found fun m hm after => ih m hm)
    | number only =>
      intro after made
      rw [Meaning.withArguments] at made
      obtain ⟨body, hbody, rfl⟩ := map_eq_ok.1 made
      exact .behavior (only.bind lawlike_trivial fun _ hx =>
        (onward body hbody).mapFault lawlike_trivial fun _ _ composed set =>
          .lasting composed hx set)
    | easing =>
      intro after made
      rw [Meaning.withArguments] at made
      obtain ⟨body, hbody, rfl⟩ := map_eq_ok.1 made
      exact .behavior ((onward body hbody).mapFault lawlike_trivial fun _ _ composed set =>
        .eased composed set)
    | model =>
      intro after made
      rw [Meaning.withArguments] at made
      obtain ⟨body, hbody, rfl⟩ := map_eq_ok.1 made
      exact .behavior (only_shownAs (onward body hbody))
    | behavior =>
      intro after made
      rw [Meaning.withArguments] at made
      cases made

end Meaning

theorem Builtin.find_composed {name : String} (h : Builtin.find? name = some m) :
    m.Composed written := by
  obtain ⟨⟨key, value⟩, found, rfl⟩ := Option.map_eq_some_iff.1 h
  have listed := List.mem_of_find?_eq_some found
  simp only [Builtin.table, List.mem_append, List.mem_map, List.mem_cons, List.not_mem_nil,
    or_false, Prod.mk.injEq] at listed
  obtain (((⟨_, _, -, rfl⟩ | ⟨_, _, -, rfl⟩) | ⟨-, rfl⟩) | ⟨_, _, -, rfl⟩) | ⟨-, rfl⟩ | ⟨-, rfl⟩ :=
    listed
  · exact .model
  · exact .easing
  · exact .behavior (Gen.makes_constant lawlike_trivial (.effect trivial))
  · exact .operator
  · exact .number Gen.only_angle
  · exact .number Gen.only_angle

namespace Term

omit [Scalar α] in
theorem mem_leavesAll {leaf : α ⊕ String} {ts : List (Term α)} :
    leaf ∈ leavesAll ts ↔ ∃ t ∈ ts, leaf ∈ t.leaves := by
  induction ts with
  | nil => simp [leavesAll]
  | cons t rest ih => simp [leavesAll, ih]

theorem asBehavior_only {first : Resolved α} {gen : Gen α (Behavior α)}
    (hf : ∀ m, first = .ok m → m.Composed written) (ha : ∀ a ∈ args, a.Composed written)
    (h : asBehavior first args = .ok gen) : gen.Only (Behavior.Composed (Varied written)) := by
  cases args with
  | nil =>
    obtain ⟨m, hm, asked⟩ := bind_eq_ok.1 h
    exact (hf m hm).ask Meaning.behaviors_only asked
  | cons a rest =>
    obtain ⟨m, hm, h⟩ := bind_eq_ok.1 h
    obtain ⟨after, made, asked⟩ := bind_eq_ok.1 h
    exact ((hf m hm).withArguments ha made).ask Meaning.behaviors_only asked

variable (written) in
def Composed (t : Term α) : Prop :=
  (∀ m, t.meaning = .ok m → m.Composed written) ∧
    ∀ ms, t.elementMeanings = some ms → ∀ m ∈ ms, ∀ v, m.get = .ok v → v.Composed written

theorem arguments_composed {ts : List (Term α)} (h : ∀ t ∈ ts, t.Composed written) :
    ∀ a ∈ arguments ts, a.Composed written := by
  induction ts with
  | nil => simp [arguments]
  | cons t rest ih =>
    obtain ⟨⟨meaning, elements⟩, later⟩ := List.forall_mem_cons.1 h
    rw [arguments]
    exact List.forall_mem_cons.2 ⟨⟨meaning, elements, fun gen made =>
      asBehavior_only meaning (ih later) made⟩, ih later⟩

theorem composed {t : Term α} (h : ∀ x, .inl x ∈ t.leaves → written x) : t.Composed written := by
  induction t with
  | number value =>
    refine ⟨fun m made => ?_, fun ms found => ?_⟩
    · cases made
      exact .number (Gen.makes_constant lawlike_trivial (.written (h value (by simp [leaves]))))
    · cases found
  | symbol name =>
    refine ⟨fun m made => ?_, fun ms found => ?_⟩
    · rw [meaning] at made
      split at made
      next found =>
        cases made
        exact Builtin.find_composed found
      · cases made
    · cases found
  | list ts ih =>
    have parts : ∀ t ∈ ts, t.Composed written := fun t ht => ih t ht fun x hx =>
      h x (by rw [leaves]; exact mem_leavesAll.2 ⟨t, ht, hx⟩)
    refine ⟨fun m made => ?_, fun ms found => ?_⟩
    · cases ts with
      | nil =>
        rw [meaning] at made
        cases made
      | cons head rest =>
        rw [meaning] at made
        split at made
        next found =>
          exact ((parts head (by simp)).1 _ found).withArguments
            (arguments_composed fun t ht => parts t (List.mem_cons_of_mem _ ht)) made
        · cases made
    · rw [elementMeanings] at found
      cases found
      rw [meanings_eq_map]
      simp only [List.mem_map]
      rintro _ ⟨t, ht, rfl⟩
      exact (parts t ht).1

end Term

omit [Scalar α] in
theorem Program.mem_numbers {p : Program α} {x : α} :
    x ∈ p.numbers ↔ ∃ t ∈ p, .inl x ∈ t.leaves := by
  rw [← Term.mem_leavesAll, numbers, List.mem_filterMap]
  simp [Sum.getLeft?_eq_some_iff]

/-- Whatever a program generates is composed of its numbers. -/
theorem Program.compile_only {p : Program α} {gen : Gen α (Behavior α)}
    (h : p.compile = .ok gen) : gen.Only (Behavior.Composed (Varied (· ∈ p.numbers))) := by
  have statement : ∀ t ∈ p, ∀ gen, t.behavior = .ok gen →
      gen.Only (Behavior.Composed (Varied (· ∈ p.numbers))) := by
    intro t ht gen made
    obtain ⟨m, hm, asked⟩ := bind_eq_ok.1 made
    have composed : t.Composed (· ∈ p.numbers) :=
      Term.composed fun x hx => mem_numbers.2 ⟨t, ht, hx⟩
    exact (composed.1 m hm).ask Meaning.behaviors_only asked
  unfold Program.compile at h
  split at h
  next only => exact statement only (by simp) gen h
  · obtain ⟨gens, hgens, h⟩ := bind_eq_ok.1 h
    cases h
    exact (Gen.makes_all lawlike_trivial (forall_of_mapM hgens statement)).map lawlike_trivial
      fun _ hbs => .sequence hbs

end ParticlePatterns
