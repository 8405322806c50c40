import ParticlePatterns.Proofs.Pattern.Asking

/-!
# Instantiating programs

A program that compiles can be instantiated for every position in a batch and from every
random state, and so can every body that comes out of it. The one thing that can go wrong is
an emission of more children than can be listed. The reason is an invariant of meanings: a
choice always has alternatives, also after arguments have been passed on through it, numbers
are never at fault, and behaviors come fresh.
-/

set_option autoImplicit false

namespace ParticlePatterns

variable {α T : Type} [Scalar α] {flaw : Fault α → Prop}

inductive Meaning.Sound (flaw : Fault α → Prop) : Meaning α → Prop
  | number {gen : Gen α α} : gen.Total → Sound flaw (.number gen)
  | easing {easing : Easing} : Sound flaw (.easing easing)
  | model {model : Model} : Sound flaw (.model model)
  | behavior {gen : Gen α (Behavior α)} : gen.Yields (Behavior.Pristine flaw) flaw →
      Sound flaw (.behavior gen)
  | operator {op : Operator} : Sound flaw (.operator op)
  | choice {mode : Mode} {alternatives : List (Meaning α)} : alternatives ≠ [] →
      (∀ m ∈ alternatives, Sound flaw m) → Sound flaw (.choice mode alternatives)

structure Argument.Sound (flaw : Fault α → Prop) (a : Argument α) : Prop where
  meaning : ∀ m, a.meaning.get = .ok m → m.Sound flaw
  elements : ∀ ms, a.elements = some ms → ∀ m ∈ ms, ∀ v, m.get = .ok v → v.Sound flaw
  onward : ∀ gen, a.onward.get = .ok gen → gen.Yields (Behavior.Pristine flaw) flaw

namespace Meaning

def Query.Draws (q : Query α T) (flaw : Fault α → Prop) (good : T → Prop)
    (bad : Fault α → Prop) : Prop :=
  ∀ m gen, Sound flaw m → q.extract m = some gen → gen.Yields good bad

omit [Scalar α] in
theorem direct_eq_ok {q : Query α T} {m : Meaning α} {gen : Gen α T} (h : q.direct m = .ok gen) :
    q.extract m = some gen := by
  unfold Query.direct at h
  split at h
  next found =>
    cases h
    exact found
  · cases h

theorem numbers_draws : numbers.Draws flaw (fun _ => True) (fun _ => False) := by
  intro m gen sound found
  cases sound with
  | number total =>
    cases found
    exact total.yields
  | _ => cases found

theorem models_draws : models.Draws flaw (fun _ => True) (fun _ => False) := by
  intro m gen sound found
  cases sound with
  | model =>
    cases found
    exact Gen.yields_constant trivial
  | _ => cases found

theorem behaviors_draws : behaviors.Draws flaw (Behavior.Pristine flaw) flaw := by
  intro m gen sound found
  cases sound with
  | behavior yields =>
    cases found
    exact yields
  | _ => cases found

variable [Scalar.Signed α]

theorem alone_sound {op : Operator} {m : Meaning α} (h : op.alone = .ok m) : Sound flaw m := by
  cases op with
  | close =>
    cases h
    exact .behavior (Gen.yields_constant (Behavior.pristine_ofEffect rfl))
  | _ => cases h

omit [Scalar.Signed α] in
theorem Sound.ask_direct {q : Query α T} {good : T → Prop} {bad : Fault α → Prop} {m : Meaning α}
    (h : Sound flaw m) (hq : q.Draws flaw good bad) (direct : m.ask q = q.direct m)
    {gen : Gen α T} (asked : m.ask q = .ok gen) : gen.Yields good bad :=
  hq m gen h (direct_eq_ok (direct.symm.trans asked))

theorem Sound.ask {q : Query α T} {good : T → Prop} {bad : Fault α → Prop} {m : Meaning α}
    (hq : q.Draws flaw good bad) (h : Sound flaw m) :
    ∀ {gen : Gen α T}, m.ask q = .ok gen → gen.Yields good bad := by
  induction h with
  | operator =>
    intro gen asked
    rw [Meaning.ask] at asked
    split at asked
    next alone => exact hq _ _ (alone_sound alone) (direct_eq_ok asked)
    · cases asked
  | choice stocked _ ih =>
    intro gen asked
    rw [Meaning.ask, askAll_eq_mapM] at asked
    split at asked
    next gens found =>
      cases asked
      exact Gen.yields_select (ne_nil_of_mapM found stocked)
        (forall_of_mapM found fun m hm gen => ih m hm)
    · cases asked
  | number total => exact (Sound.number total).ask_direct hq (by simp [Meaning.ask])
  | easing => exact Sound.easing.ask_direct hq (by simp [Meaning.ask])
  | model => exact Sound.model.ask_direct hq (by simp [Meaning.ask])
  | behavior yields => exact (Sound.behavior yields).ask_direct hq (by simp [Meaning.ask])

end Meaning

variable [Scalar.Signed α]

namespace Argument.Sound

variable {a : Argument α}

theorem ask (h : a.Sound flaw) {q : Meaning.Query α T} {good : T → Prop} {bad : Fault α → Prop}
    (hq : q.Draws flaw good bad) {gen : Gen α T} (asked : a.ask q = .ok gen) :
    gen.Yields good bad := by
  obtain ⟨m, hm, asked⟩ := bind_eq_ok.1 asked
  exact (h.meaning m hm).ask hq asked

theorem number (h : a.Sound flaw) {gen : Gen α α} (asked : a.number = .ok gen) : gen.Total :=
  (h.ask Meaning.numbers_draws asked).total

theorem track (h : a.Sound flaw) {gen : Gen α (Behavior α)} (asked : a.track = .ok gen) :
    gen.Yields (Behavior.Pristine flaw) flaw := by
  unfold Argument.track at asked
  split at asked
  · cases asked
  next statements found =>
    obtain ⟨gens, hgens, asked⟩ := bind_eq_ok.1 asked
    cases asked
    have each : ∀ gen ∈ gens, gen.Yields (Behavior.Pristine flaw) flaw := by
      refine forall_of_mapM hgens fun m hm gen hgen => ?_
      obtain ⟨v, hv, hgen⟩ := bind_eq_ok.1 hgen
      exact (h.elements _ found m hm v hv).ask Meaning.behaviors_draws hgen
    exact (Gen.yields_all each).map fun bs hbs => Behavior.pristine_sequence hbs

end Argument.Sound

namespace Operator

omit [Scalar.Signed α] in
theorem yields_ofVector {make : Vec3 α → Behavior α} {x y z : Gen α α}
    (hm : ∀ v, (make v).Pristine flaw) (hx : x.Total) (hy : y.Total) (hz : z.Total) :
    (ofVector make x y z).Yields (Behavior.Pristine flaw) flaw :=
  hx.yields.bind fun _ _ => hy.yields.bind fun _ _ => hz.yields.map fun _ _ => hm _

theorem apply_sound {op : Operator} {args : List (Argument α)}
    (ho : op = .emit → ∀ fault, fault.OfExcess (Argument.Ask args) → flaw fault)
    (ha : ∀ a ∈ args, a.Sound flaw) {m : Meaning α} (h : op.apply args = .ok m) :
    m.Sound flaw := by
  unfold Operator.apply at h
  split at h
  case h_1 modifier operand =>
    obtain ⟨x, hx, h⟩ := bind_eq_ok.1 h
    cases h
    exact .behavior (((ha operand (by simp)).number hx).yields.map fun _ _ =>
      Behavior.pristine_ofEffect rfl)
  case h_2 name =>
    obtain ⟨x, hx, h⟩ := bind_eq_ok.1 h
    cases h
    have total := ((ha name (by simp)).ask Meaning.models_draws hx).total
    exact .behavior (total.yields.map fun _ _ => Behavior.pristine_ofEffect rfl)
  case h_3 =>
    cases h
    exact .behavior (Gen.yields_constant (Behavior.pristine_ofEffect rfl))
  case h_4 a b c | h_5 a b c =>
    obtain ⟨x, hx, h⟩ := bind_eq_ok.1 h
    obtain ⟨y, hy, h⟩ := bind_eq_ok.1 h
    obtain ⟨z, hz, h⟩ := bind_eq_ok.1 h
    cases h
    exact .behavior (yields_ofVector (fun _ => Behavior.pristine_ofEffect trivial)
      ((ha a (by simp)).number hx) ((ha b (by simp)).number hy) ((ha c (by simp)).number hz))
  case h_6 first rest =>
    obtain ⟨body, hbody, h⟩ := bind_eq_ok.1 h
    cases h
    have yields := (ha first (by simp)).onward body hbody
    exact .behavior (Gen.yields_forSibling fun s => Behavior.pristine_loop yields s)
  case h_7 limit first rest =>
    obtain ⟨n, hn, h⟩ := bind_eq_ok.1 h
    obtain ⟨body, hbody, h⟩ := bind_eq_ok.1 h
    cases h
    have yields := (ha first (by simp)).onward body hbody
    exact .behavior (((ha limit (by simp)).number hn).yields.bind fun _ _ =>
      Gen.yields_forSibling fun s => Behavior.pristine_repetition yields s _)
  case h_8 count times copies first rest =>
    obtain ⟨n, hn, h⟩ := bind_eq_ok.1 h
    obtain ⟨t, ht, h⟩ := bind_eq_ok.1 h
    obtain ⟨c, hc, h⟩ := bind_eq_ok.1 h
    obtain ⟨body, hbody, h⟩ := bind_eq_ok.1 h
    cases h
    have yields := (ha first (by simp)).onward body hbody
    have draws : ∀ a ∈ [count, times, copies], ∀ gen, a.number = .ok gen →
        gen.Yields gen.Gives flaw := fun a hmem gen hgen =>
      ⟨fun _ given => given, (((ha a (by simp at hmem ⊢; tauto)).number hgen).yields).fault⟩
    refine .behavior ((draws count (by simp) n hn).bind fun x hx =>
      (draws times (by simp) t ht).bind fun y hy =>
        (draws copies (by simp) c hc).mapFault (fun _ _ _ made => ?_)
          fun z fault hz failed => ?_)
    · exact Behavior.pristine_emission yields made
    · have refused := Behavior.fault?_of_emission failed
      refine ho rfl fault ⟨_, ⟨count, times, copies, _, rfl, ⟨n, x, hn, hx, rfl⟩,
        ⟨t, y, ht, hy, rfl⟩, c, z, hc, hz, rfl⟩, fun fits => ?_, refused⟩
      rw [(Batch.fault?_eq_none_iff _).2 fits] at refused
      cases refused
  case h_9 first rest =>
    obtain ⟨tracks, htracks, h⟩ := bind_eq_ok.1 h
    cases h
    have each := forall_of_mapM htracks fun a hmem gen => (ha a hmem).track
    exact .behavior ((Gen.yields_all each).map fun _ hbs => Behavior.pristine_together hbs)
  case h_10 mode first rest =>
    obtain ⟨alternatives, found, h⟩ := bind_eq_ok.1 h
    cases h
    exact .choice (ne_nil_of_mapM found (by simp))
      (forall_of_mapM found fun a hmem => (ha a hmem).meaning)
  case h_11 mode low high =>
    obtain ⟨x, hx, h⟩ := bind_eq_ok.1 h
    obtain ⟨y, hy, h⟩ := bind_eq_ok.1 h
    cases h
    exact .number (((ha low (by simp)).number hx).range ((ha high (by simp)).number hy))
  case h_12 => cases h

end Operator

namespace Meaning

theorem yields_lasting {lifespan : Gen α α} {body : Gen α (Behavior α)} (hl : lifespan.Total)
    (hb : body.Yields (Behavior.Pristine flaw) flaw) :
    (lasting lifespan body).Yields (Behavior.Pristine flaw) flaw := by
  refine hl.yields.bind fun x _ => hb.mapFault (fun b c hp set => ?_) fun b fault hp failed => ?_
  all_goals obtain ⟨d, made, pristine⟩ := hp.setLifespan (Scalar.zero_le_max_zero x)
  · cases made.symm.trans set
    exact pristine
  · cases made.symm.trans failed

omit [Scalar.Signed α] in
theorem yields_eased {easing : Easing} {body : Gen α (Behavior α)}
    (hb : body.Yields (Behavior.Pristine flaw) flaw) :
    (eased easing body).Yields (Behavior.Pristine flaw) flaw := by
  refine hb.mapFault (fun b c hp set => ?_) fun b fault hp failed => ?_
  all_goals obtain ⟨d, made, pristine⟩ := hp.setEasing easing
  · cases made.symm.trans set
    exact pristine
  · cases made.symm.trans failed

theorem yields_shownAs {model : Model} {body : Gen α (Behavior α)}
    (hb : body.Yields (Behavior.Pristine flaw) flaw) :
    (shownAs model body).Yields (Behavior.Pristine flaw) flaw := by
  refine hb.map fun b pristine => Behavior.pristine_sequence ?_
  simp only [List.mem_cons, List.not_mem_nil, or_false, forall_eq_or_imp, forall_eq]
  exact ⟨Behavior.pristine_ofEffect rfl, pristine⟩

theorem Sound.withArguments {args : List (Argument α)} (ha : ∀ a ∈ args, a.Sound flaw)
    {m : Meaning α} (h : m.Sound flaw)
    (ho : m.Offers .emit → ∀ fault, fault.OfExcess (Argument.Ask args) → flaw fault) :
    ∀ {after : Meaning α}, m.withArguments args = .ok after → after.Sound flaw := by
  cases args with
  | nil =>
    intro after made
    rw [withArguments_nil] at made
    split at made
    · exact alone_sound made
    · cases made
      exact h
  | cons first rest =>
    have onward := (ha first (by simp)).onward
    induction h with
    | operator =>
      intro after made
      rw [Meaning.withArguments] at made
      exact Operator.apply_sound (fun same => ho (same ▸ .here)) ha made
    | choice stocked _ ih =>
      intro after made
      rw [Meaning.withArguments, withArgumentsAll_eq_mapM] at made
      obtain ⟨curried, found, rfl⟩ := map_eq_ok.1 made
      exact .choice (ne_nil_of_mapM found stocked)
        (forall_of_mapM found fun m hm after => ih m hm fun offers => ho (.among hm offers))
    | number total =>
      intro after made
      rw [Meaning.withArguments] at made
      obtain ⟨body, hbody, rfl⟩ := map_eq_ok.1 made
      exact .behavior (yields_lasting total (onward body hbody))
    | easing =>
      intro after made
      rw [Meaning.withArguments] at made
      obtain ⟨body, hbody, rfl⟩ := map_eq_ok.1 made
      exact .behavior (yields_eased (onward body hbody))
    | model =>
      intro after made
      rw [Meaning.withArguments] at made
      obtain ⟨body, hbody, rfl⟩ := map_eq_ok.1 made
      exact .behavior (yields_shownAs (onward body hbody))
    | behavior =>
      intro after made
      rw [Meaning.withArguments] at made
      cases made

end Meaning

theorem Builtin.find_sound {name : String} {m : Meaning α} (h : Builtin.find? name = some m) :
    m.Sound flaw := by
  obtain ⟨⟨key, value⟩, found, rfl⟩ := Option.map_eq_some_iff.1 h
  have listed := List.mem_of_find?_eq_some found
  simp only [Builtin.table, List.mem_append, List.mem_map, List.mem_cons, List.not_mem_nil,
    or_false, Prod.mk.injEq] at listed
  obtain (((⟨model, _, -, rfl⟩ | ⟨easing, _, -, rfl⟩) | ⟨-, rfl⟩) | ⟨op, _, -, rfl⟩) |
    ⟨-, rfl⟩ | ⟨-, rfl⟩ := listed
  · exact .model
  · exact .easing
  · exact .behavior (Gen.yields_constant (Behavior.pristine_ofEffect trivial))
  · exact .operator
  · exact .number Gen.total_angle
  · exact .number Gen.total_angle

namespace Term

theorem asBehavior_sound {first : Resolved α} {args : List (Argument α)} {gen : Gen α (Behavior α)}
    (hf : ∀ m, first = .ok m → m.Sound flaw ∧
      (m.Offers .emit → ∀ fault, fault.OfExcess (Argument.Ask args) → flaw fault))
    (ha : ∀ a ∈ args, a.Sound flaw) (h : asBehavior first args = .ok gen) :
    gen.Yields (Behavior.Pristine flaw) flaw := by
  cases args with
  | nil =>
    obtain ⟨m, hm, asked⟩ := bind_eq_ok.1 h
    exact (hf m hm).1.ask Meaning.behaviors_draws asked
  | cons a rest =>
    obtain ⟨m, hm, h⟩ := bind_eq_ok.1 h
    obtain ⟨after, made, asked⟩ := bind_eq_ok.1 h
    exact ((hf m hm).1.withArguments ha (hf m hm).2 made).ask Meaning.behaviors_draws asked

/-- All that an emission in the list may ask for in vain is allowed for. -/
theorem arguments_sound {ts : List (Term α)}
    (h : ∀ t ∈ ts, (∀ m, t.meaning = .ok m → m.Sound flaw) ∧
      ∀ ms, t.elementMeanings = some ms → ∀ m ∈ ms, ∀ v, m.get = .ok v → v.Sound flaw) :
    ∀ before, (∀ fault, (Term.list (before ++ ts)).Excess fault → flaw fault) →
      ∀ a ∈ arguments ts, a.Sound flaw := by
  induction ts with
  | nil => simp [arguments]
  | cons t rest ih =>
    intro before hn
    obtain ⟨⟨meaning, elements⟩, later⟩ := List.forall_mem_cons.1 h
    have behind := ih later (before ++ [t]) (by simpa using hn)
    rw [arguments]
    refine List.forall_mem_cons.2 ⟨⟨meaning, elements, fun gen hgen => ?_⟩, behind⟩
    refine asBehavior_sound (fun m hm => ⟨meaning m hm, fun offers fault => ?_⟩) behind hgen
    rintro ⟨batch, asked, refused⟩
    exact hn fault ⟨batch, ⟨t, rest, m, .here ⟨before, rfl⟩, hm, offers, asked⟩, refused⟩

theorem meaning_sound {t : Term α} (hn : ∀ fault, t.Excess fault → flaw fault) :
    (∀ m, t.meaning = .ok m → m.Sound flaw) ∧
      ∀ ms, t.elementMeanings = some ms → ∀ m ∈ ms, ∀ v, m.get = .ok v → v.Sound flaw := by
  induction t with
  | number value =>
    refine ⟨fun m h => ?_, fun ms h => ?_⟩
    · cases h
      exact .number fun s r => ⟨value, r, rfl⟩
    · cases h
  | symbol name =>
    refine ⟨fun m h => ?_, fun ms h => ?_⟩
    · rw [meaning] at h
      split at h
      next found =>
        cases h
        exact Builtin.find_sound found
      · cases h
    · cases h
  | list ts ih =>
    have parts := fun t ht => ih t ht fun fault inner => hn fault (inner.inside ht)
    refine ⟨fun m h => ?_, fun ms h => ?_⟩
    · cases ts with
      | nil =>
        rw [meaning] at h
        cases h
      | cons head args =>
        rw [meaning] at h
        split at h
        next found =>
          refine ((parts head (by simp)).1 _ found).withArguments (arguments_sound
            (fun t ht => parts t (List.mem_cons_of_mem _ ht)) [head] hn) (fun offers fault => ?_) h
          rintro ⟨batch, asked, refused⟩
          have applied : head.AppliedTo args (.list (head :: args)) := .here List.suffix_rfl
          exact hn fault ⟨batch, ⟨head, args, _, applied, found, offers, asked⟩, refused⟩
        · cases h
    · rw [elementMeanings] at h
      cases h
      rw [meanings_eq_map]
      simp only [List.mem_map]
      rintro _ ⟨t, ht, rfl⟩ v hv
      exact (parts t ht).1 v hv

theorem behavior_yields {t : Term α} {gen : Gen α (Behavior α)}
    (hn : ∀ fault, t.Excess fault → flaw fault) (h : t.behavior = .ok gen) :
    gen.Yields (Behavior.Pristine flaw) flaw := by
  obtain ⟨m, hm, asked⟩ := bind_eq_ok.1 h
  exact ((meaning_sound hn).1 m hm).ask Meaning.behaviors_draws asked

end Term

theorem Program.compile_yields {p : Program α} {gen : Gen α (Behavior α)}
    (hn : ∀ fault, (Term.list p).Excess fault → flaw fault) (h : p.compile = .ok gen) :
    gen.Yields (Behavior.Pristine flaw) flaw := by
  have statement : ∀ t ∈ p, ∀ gen, t.behavior = .ok gen →
      gen.Yields (Behavior.Pristine flaw) flaw :=
    fun t ht gen => Term.behavior_yields fun fault inner => hn fault (inner.inside ht)
  unfold Program.compile at h
  split at h
  next only => exact statement only (by simp) gen h
  · obtain ⟨gens, hgens, h⟩ := bind_eq_ok.1 h
    cases h
    exact (Gen.yields_all (forall_of_mapM hgens statement)).map fun bs hbs =>
      Behavior.pristine_sequence hbs

theorem Gen.countOf_natCast (n : ℕ) : countOf (Exact.real n) = n := by
  have finite : Scalar.IsFinite (Exact.real n) := Exact.isFinite_iff.2 ⟨n, rfl⟩
  unfold countOf
  split
  · show ⌊(n : ℝ) + 1 / 2⌋₊ = n
    exact (Nat.floor_eq_iff (by positivity)).2 ⟨by linarith, by linarith⟩
  next none =>
    have zero : ¬0 < Exact.real n := fun positive => none ⟨finite, positive⟩
    have least : ¬(0 : ℝ) < n := by simpa using zero
    exact (Nat.eq_zero_of_not_pos (by exact_mod_cast least)).symm

@[simp]
theorem Gen.countOf_one : countOf (Exact.real 1) = 1 := by
  simpa using countOf_natCast 1

@[simp]
theorem Gen.countOf_ofNat (n : ℕ) [n.AtLeastTwo] :
    countOf (Exact.real ofNat(n)) = ofNat(n) := by
  simpa using countOf_natCast ofNat(n)

/-- Every position in a batch and every random state instantiates a program that compiles,
and so it goes on for the bodies that come out, unless one of its emissions is of a batch that has
no room. If there is room for every batch that is asked for, the behaviors are such as fields may
be given. Without emissions none is asked for. -/
theorem Program.instantiates {p : Program α} {gen : Gen α (Behavior α)} (h : p.compile = .ok gen) :
    (∀ s r, (∃ b after, gen s r = .ok (b, after) ∧ b.Pristine (Term.list p).Excess) ∨
      ∃ fault, gen s r = .error fault ∧ (Term.list p).Excess fault) ∧
    ((∀ batch, (Term.list p).Asks batch → batch.Fits) →
      gen.Total ∧ ∀ b, gen.Gives b → Built b) ∧
    (∀ batch, (Term.list p).Asks batch → (Term.list p).Mentions Operator.emit.name) ∧
    (∀ (t : Term α) m, t.meaning = .ok m → m.Sound t.Excess) ∧
    ∀ s : Sibling, Gen.share? (α := α) s = some (Gen.share s) ∧
      Gen.bearing? (α := α) s = some (Gen.bearing s) := by
  have yields : gen.Yields (Behavior.Pristine (Term.list p).Excess) (Term.list p).Excess :=
    compile_yields (fun _ excess => excess) h
  refine ⟨fun s r => ?_, fun room => ?_, fun batch => ?_, fun t m => ?_, fun s => ?_⟩
  · cases made : gen s r with
    | ok result =>
      exact .inl ⟨result.1, result.2, rfl, yields.value _ ⟨s, r, result.2, made⟩⟩
    | error fault => exact .inr ⟨fault, rfl, yields.fault fault ⟨s, r, made⟩⟩
  · have sure : gen.Yields (Behavior.Pristine fun _ => False) fun _ => False := by
      refine compile_yields ?_ h
      rintro fault ⟨batch, asks, crowded, -⟩
      exact crowded (room batch asks)
    exact ⟨sure.total, fun b hb => (sure.value b hb).built⟩
  · exact Term.Asks.mentions
  · exact (Term.meaning_sound fun _ excess => excess).1 m
  · exact ⟨Gen.share?_eq s, Gen.bearing?_eq s⟩

open Exact (real)

theorem Program.instantiates_choice :
    let varied : Term Exact := .list [.symbol "each-choice", .number (real 1), .number (real 2)]
    let burst : Term Exact := .list [.symbol "emit", .number (real 1), .number (real 2),
      .number (real 1), .list [varied, .symbol "nop"]]
    let p : Program Exact := [.list [.symbol "loop", burst]]
    (∀ batch, (Term.list p).Asks batch → batch = ⟨1, 2, 1⟩) ∧
      ∃ gen, p.compile = .ok gen ∧ gen.Total ∧ ∀ b, gen.Gives b → Built b := by
  intro varied burst p
  have asked : ∀ batch, (Term.list p).Asks batch → batch = ⟨1, 2, 1⟩ := by
    rintro batch ⟨head, args, m, applied, meant, offers, ask⟩
    have long := ask.three_le
    -- Of all that has three arguments behind it, only the emission is an operator.
    obtain ⟨rfl, rfl⟩ | rfl : (head = .symbol "emit" ∧ args =
        [.number (real 1), .number (real 2), .number (real 1), .list [varied, .symbol "nop"]]) ∨
        head = .number (real 1) := by
      simp only [p, burst, varied, Term.appliedTo_list, Term.not_appliedTo_symbol,
        Term.not_appliedTo_number, List.suffix_cons_iff, List.suffix_nil, List.mem_cons,
        List.not_mem_nil, or_false, exists_eq_or_imp, exists_eq_left, List.cons.injEq,
        false_or] at applied
      grind
    · simpa using Argument.ask_constants ask
    · cases meant
      cases offers
  obtain ⟨gen, h⟩ : ∃ gen, p.compile = .ok gen := ⟨_, rfl⟩
  refine ⟨asked, gen, h, (Program.instantiates h).2.1 fun batch asks => ?_⟩
  rw [asked batch asks]
  decide

/-- The positions of so many copies cannot be listed. -/
theorem Program.compile_copies :
    let p : Program Exact := [.list [.symbol "emit", .number (real 1), .number (real 1),
      .number (real (10 ^ 19)), .symbol "nop"]]
    ∃ gen, p.compile = .ok gen ∧ ∀ s r, gen s r = .error .noRoom := by
  intro p
  refine ⟨_, rfl, fun s r => ?_⟩
  have copies : Gen.countOf (real (10 ^ 19)) = 10 ^ 19 := by
    rw [← Gen.countOf_natCast (10 ^ 19), Nat.cast_pow, Nat.cast_ofNat]
  show (Behavior.emission ⟨Gen.countOf (real 1), Gen.countOf (real 1),
    Gen.countOf (real (10 ^ 19))⟩ _).map (·, r) = _
  rw [Gen.countOf_one, copies]
  rfl

end ParticlePatterns
