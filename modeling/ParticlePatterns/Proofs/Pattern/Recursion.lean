import ParticlePatterns.Proofs.Pattern.Outline
import ParticlePatterns.Proofs.Pattern.Prefixes

/-!
# Compiling as plain recursion

A term can be compiled without working out anything ahead: a list resolves its head and hands
the terms behind it on, an operator or a prefix resolves those, perhaps made into a new list,
a choice resolves them once for each of its alternatives, and an operator that is asked for a
kind is applied to nothing first. Nothing about this recursion says that it ends; where it did
not, no number of calls inside of each other would do. Some number always does, and the answer
is the meaning that is worked out ahead: what is resolved gets smaller with every list that is
taken apart, and between two lists only alternatives are gone through.
-/

set_option autoImplicit false

namespace ParticlePatterns

/-- What holds of a choice as soon as it holds of its alternatives holds of every meaning. -/
@[elab_as_elim]
theorem Meaning.induction {α : Type} {P : Meaning α → Prop} (number : ∀ gen, P (.number gen))
    (easing : ∀ e, P (.easing e)) (model : ∀ m, P (.model m))
    (behavior : ∀ gen, P (.behavior gen)) (operator : ∀ op, P (.operator op))
    (choice : ∀ mode alternatives, (∀ m ∈ alternatives, P m) → P (.choice mode alternatives))
    (m : Meaning α) : P m := by
  refine @Meaning.rec α P (fun ms => ∀ m ∈ ms, P m) number easing model behavior operator choice
    ?_ ?_ m
  · simp
  · exact fun first rest hf hr => List.forall_mem_cons.2 ⟨hf, hr⟩

namespace Compiling

abbrev Eventual (α T : Type) : Type :=
  ExceptT (CompileError α) Option T

variable {α T U : Type}

def ended (answer : Except (CompileError α) T) : Eventual α T :=
  ExceptT.mk (some answer)

def unended : Eventual α T :=
  ExceptT.mk none

structure Calls (α : Type) where
  resolve : Term α → Eventual α (Meaning α)
  number : Term α → Eventual α (Gen α α)
  behavior : Term α → Eventual α (Gen α (Behavior α))
  /-- What is left of the arguments, as one term. -/
  rest : List (Term α) → Eventual α (Gen α (Behavior α))
  track : Term α → Eventual α (Gen α (Behavior α))
  query {T : Type} : Meaning.Query α T → Meaning α → Eventual α (Gen α T)
  withArguments : List (Term α) → Meaning α → Eventual α (Meaning α)
  apply : Operator → List (Term α) → Eventual α (Meaning α)

section Bodies

variable [Scalar α] (calls : Calls α)

def resolve (t : Term α) : Eventual α (Meaning α) :=
  match t with
  | .number value => pure (.number (.constant value))
  | .symbol name => match Builtin.find? name with
    | some m => pure m
    | none => throw (.unknownIdentifier name)
  | .list [] => throw .emptyList
  | .list (head :: args) => do
      let m ← calls.resolve head
      calls.withArguments args m

def number (t : Term α) : Eventual α (Gen α α) := do
  let m ← calls.resolve t
  calls.query Meaning.numbers m

def behavior (t : Term α) : Eventual α (Gen α (Behavior α)) := do
  let m ← calls.resolve t
  calls.query Meaning.behaviors m

def rest (args : List (Term α)) : Eventual α (Gen α (Behavior α)) :=
  calls.behavior (Term.standalone args)

def track (t : Term α) : Eventual α (Gen α (Behavior α)) :=
  match t with
  | .list statements => do
      let gens ← statements.mapM calls.behavior
      pure ((Gen.all gens).map .sequence)
  | t => throw (.malformedBlock t)

def query (q : Meaning.Query α T) (m : Meaning α) : Eventual α (Gen α T) :=
  match m with
  | .operator op => do
      let applied ← calls.apply op []
      calls.query q applied
  | .choice mode alternatives => do
      let gens ← alternatives.mapM (calls.query q)
      pure (.select mode gens)
  | m => ended (q.direct m)

def withArguments (args : List (Term α)) (m : Meaning α) : Eventual α (Meaning α) :=
  match m, args with
  | .operator op, args => calls.apply op args
  | m, [] => pure m
  | .number lifespan, args => do
      let body ← calls.rest args
      pure (.behavior (Meaning.lasting lifespan body))
  | .easing e, args => do
      let body ← calls.rest args
      pure (.behavior (Meaning.eased e body))
  | .model m, args => do
      let body ← calls.rest args
      pure (.behavior (Meaning.shownAs m body))
  | .choice mode alternatives, args => do
      let alternatives ← alternatives.mapM (calls.withArguments args)
      pure (.choice mode alternatives)
  | .behavior gen, args => throw (.arity (Meaning.behavior gen).describe .never args.length)

def apply (op : Operator) (args : List (Term α)) : Eventual α (Meaning α) :=
  match op, args with
  | .modify modifier, [operand] => do
      let operand ← calls.number operand
      pure (.behavior (operand.map (.modify modifier.property modifier.modification)))
  | .model, [name] => do
      let m ← calls.resolve name
      let model ← calls.query Meaning.models m
      pure (.behavior (model.map fun m => .switch (.become m)))
  | .close, [] => pure (.behavior (.constant (.switch .close)))
  | .translate, [x, y, z] => do
      let x ← calls.number x
      let y ← calls.number y
      let z ← calls.number z
      pure (.behavior (Operator.ofVector .translate x y z))
  | .rotate, [x, y, z] => do
      let x ← calls.number x
      let y ← calls.number y
      let z ← calls.number z
      pure (.behavior (Operator.ofVector .rotate x y z))
  | .loop, first :: more => do
      let body ← calls.rest (first :: more)
      pure (.behavior fun s r => .ok (.loop body s, r))
  | .repetition, limit :: first :: more => do
      let limit ← calls.number limit
      let body ← calls.rest (first :: more)
      pure (.behavior (limit.bind fun n s r => .ok (.repetition body s (Gen.countOf n), r)))
  | .emit, count :: times :: copies :: first :: more => do
      let count ← calls.number count
      let times ← calls.number times
      let copies ← calls.number copies
      let body ← calls.rest (first :: more)
      pure (.behavior (count.bind fun n => times.bind fun t => copies.mapFault fun c =>
        Behavior.emission ⟨Gen.countOf n, Gen.countOf t, Gen.countOf c⟩ body))
  | .block, first :: more => do
      let tracks ← (first :: more).mapM calls.track
      pure (.behavior ((Gen.all tracks).map .together))
  | .choice mode, first :: more => do
      let alternatives ← (first :: more).mapM calls.resolve
      pure (.choice mode alternatives)
  | .range mode, [low, high] => do
      let low ← calls.number low
      let high ← calls.number high
      pure (.number (.range mode low high))
  | op, args => throw (op.arityError args.length)

def compile (p : Program α) : Eventual α (Gen α (Behavior α)) :=
  match p with
  | [statement] => calls.behavior statement
  | statements => do
      let gens ← statements.mapM calls.behavior
      pure ((Gen.all gens).map .sequence)

end Bodies

def nested [Scalar α] : Nat → Calls α
  | 0 => ⟨fun _ => unended, fun _ => unended, fun _ => unended, fun _ => unended,
      fun _ => unended, fun _ _ => unended, fun _ _ => unended, fun _ _ => unended⟩
  | n + 1 => ⟨resolve (nested n), number (nested n), behavior (nested n), rest (nested n),
      track (nested n), query (nested n), withArguments (nested n), apply (nested n)⟩

/-- Has this answer as soon as calls enough are allowed, and keeps it. -/
def Comes (x : Nat → Eventual α T) (answer : Except (CompileError α) T) : Prop :=
  ∃ enough, ∀ n, enough ≤ n → x n = ended answer

section Steps

variable {x : Nat → Eventual α T} {answer : Except (CompileError α) T}

theorem comes_ended (answer : Except (CompileError α) T) : Comes (fun _ => ended answer) answer :=
  ⟨0, fun _ _ => rfl⟩

theorem comes_pure (v : T) : Comes (fun _ => (pure v : Eventual α T)) (pure v) :=
  comes_ended (.ok v)

/-- One call more is allowed than what is done inside of it needs. -/
theorem Comes.call (h : Comes (fun n => x (n + 1)) answer) : Comes x answer := by
  obtain ⟨enough, ends⟩ := h
  refine ⟨enough + 1, fun n hn => ?_⟩
  obtain ⟨m, rfl⟩ := Nat.exists_eq_add_one.2 (Nat.zero_lt_of_lt hn)
  exact ends m (Nat.le_of_succ_le_succ hn)

theorem Comes.bind_error {f : Nat → T → Eventual α U} {e : CompileError α}
    (h : Comes x (.error e)) : Comes (fun n => x n >>= f n) (.error e) := by
  obtain ⟨enough, ends⟩ := h
  refine ⟨enough, fun n hn => ?_⟩
  dsimp only
  rw [ends n hn]
  rfl

theorem Comes.bind_ok {f : Nat → T → Eventual α U} {v : T} {answer : Except (CompileError α) U}
    (h : Comes x (.ok v)) (hf : Comes (fun n => f n v) answer) :
    Comes (fun n => x n >>= f n) answer := by
  obtain ⟨first, ends⟩ := h
  obtain ⟨second, more⟩ := hf
  refine ⟨max first second, fun n hn => ?_⟩
  dsimp only
  rw [ends n (le_of_max_le_left hn)]
  exact more n (le_of_max_le_right hn)

theorem Comes.bind {f : Nat → T → Eventual α U} {g : T → Except (CompileError α) U}
    (h : Comes x answer) (hf : ∀ v, Comes (fun n => f n v) (g v)) :
    Comes (fun n => x n >>= f n) (answer >>= g) := by
  cases answer with
  | error e => exact h.bind_error
  | ok v => exact h.bind_ok (hf v)

theorem Comes.mapM {f : Nat → T → Eventual α U} {g : T → Except (CompileError α) U} {xs : List T}
    (h : ∀ x ∈ xs, Comes (fun n => f n x) (g x)) : Comes (fun n => xs.mapM (f n)) (xs.mapM g) := by
  induction xs with
  | nil => exact comes_ended _
  | cons x xs ih =>
    obtain ⟨first, later⟩ := List.forall_mem_cons.1 h
    simp only [List.mapM_cons]
    exact first.bind fun v => (ih later).bind fun vs => comes_ended _

end Steps

variable [Scalar α]

def Ends (t : Term α) : Prop :=
  Comes (fun n => (nested n).resolve t) t.meaning

/-- An operator that is applied to nothing resolves nothing. -/
theorem apply_nil (op : Operator) :
    Comes (fun n => (nested n).apply op ([] : List (Term α))) op.alone := by
  refine Comes.call ?_
  cases op <;> exact comes_ended _

/-- Alternatives lie in what they are alternatives of, and an operator stands for a behavior
if for anything. -/
theorem query_ended (q : Meaning.Query α T) (m : Meaning α) :
    Comes (fun n => (nested n).query q m) (m.ask q) := by
  induction m using Meaning.induction with
  | operator op =>
    refine Comes.call ?_
    rw [Meaning.ask]
    cases op with
    | close => exact (apply_nil .close).bind_ok (Comes.call (comes_ended _))
    | _ => exact (apply_nil _).bind_error
  | choice mode ms ih =>
    rw [Meaning.ask_choice]
    exact Comes.call ((Comes.mapM ih).bind fun gens => comes_pure _)
  | number | easing | model | behavior => exact Comes.call (comes_ended _)

theorem Ends.query {t : Term α} (h : Ends t) (q : Meaning.Query α T) :
    Comes (fun n => (nested n).resolve t >>= (nested n).query q) (t.meaning >>= Meaning.ask q) :=
  h.bind (query_ended q)

theorem Ends.number {t : Term α} (h : Ends t) :
    Comes (fun n => (nested n).number t) (t.meaning >>= Meaning.ask Meaning.numbers) :=
  Comes.call (h.query Meaning.numbers)

theorem Ends.behavior {t : Term α} (h : Ends t) :
    Comes (fun n => (nested n).behavior t) t.behavior :=
  Comes.call (h.query Meaning.behaviors)

theorem Ends.rest {ts : List (Term α)} (h : Ends (Term.standalone ts)) :
    Comes (fun n => (nested n).rest ts) (Term.standalone ts).behavior :=
  Comes.call h.behavior

theorem asBehavior_arguments (t : Term α) (us : List (Term α)) :
    Term.asBehavior t.meaning (Term.arguments us) = (Term.standalone (t :: us)).behavior := by
  obtain ⟨a, more, same, onward⟩ := Term.exists_arguments_onward (List.cons_ne_nil t us)
  rw [Term.arguments] at same
  cases same
  exact onward

structure EndsDeep (t : Term α) : Prop where
  whole : Ends t
  inside : ∀ ts, t = .list ts → ∀ u ∈ ts, Ends u

inductive EndAll : List (Term α) → Prop
  | nil : EndAll []
  | cons {t : Term α} {ts : List (Term α)} : EndsDeep t → Ends (Term.standalone (t :: ts)) →
      EndAll ts → EndAll (t :: ts)

section Arguments

variable {args : List (Term α)}

theorem EndAll.deep (h : EndAll args) : ∀ t ∈ args, EndsDeep t := by
  induction h with
  | nil => simp
  | cons first _ _ ih => exact List.forall_mem_cons.2 ⟨first, ih⟩

/-- A refusal tells how many arguments there were. -/
theorem refused (refusal : Nat → CompileError α) (args : List (Term α)) :
    Comes (fun _ => (throw (refusal args.length) : Eventual α T))
      (.error (refusal (Term.arguments args).length)) := by
  rw [← congrArg List.length (Term.arguments_terms args), List.length_map]
  exact comes_ended _

theorem alternatives_ended (h : EndAll args) : Comes (fun n => args.mapM (nested n).resolve)
    ((Term.arguments args).mapM fun a => a.meaning.get) := by
  rw [Term.mapM_meaning_arguments]
  exact Comes.mapM fun t ht => (h.deep t ht).whole

theorem tracks_ended (h : EndAll args) : Comes (fun n => args.mapM (nested n).track)
    ((Term.arguments args).mapM Argument.track) := by
  induction h with
  | nil => exact comes_ended _
  | @cons t ts deep _ _ ih =>
    simp only [Term.arguments, List.mapM_cons]
    refine Comes.bind (Comes.call ?_) fun _ => ih.bind fun _ => comes_pure _
    cases t with
    | number value => exact comes_ended _
    | symbol name => exact comes_ended _
    | list statements =>
      have each : Comes (fun n => statements.mapM (nested n).behavior)
          ((Term.meanings statements).mapM fun m =>
            m.get >>= Meaning.ask Meaning.behaviors) := by
        rw [Term.meanings_eq_map, List.mapM_map]
        exact Comes.mapM fun u hu => (deep.inside statements rfl u hu).behavior
      exact each.bind fun _ => comes_pure _

theorem onward_ended {t : Term α} {ts : List (Term α)} (h : Ends (Term.standalone (t :: ts))) :
    Comes (fun n => (nested n).rest (t :: ts))
      (Term.asBehavior t.meaning (Term.arguments ts)) := by
  rw [asBehavior_arguments]
  exact h.rest

theorem EndAll.apply (h : EndAll args) (op : Operator) :
    Comes (fun n => (nested n).apply op args) (op.apply (Term.arguments args)) := by
  refine Comes.call ?_
  cases op with
  | modify modifier =>
    match args, h with
    | [_], .cons operand _ .nil => exact operand.whole.number.bind fun _ => comes_pure _
    | [], _ | _ :: _ :: _, _ => exact refused _ _
  | model =>
    match args, h with
    | [name], .cons deep _ .nil =>
      have become := fun model : Gen α Model => comes_pure (α := α)
        (Meaning.behavior (model.map fun m => .switch (.become m)))
      have asked := deep.whole.bind fun m => (query_ended Meaning.models m).bind become
      rwa [← bind_assoc] at asked
    | [], _ | _ :: _ :: _, _ => exact refused _ _
  | close =>
    match args, h with
    | [], _ => exact comes_ended _
    | _ :: _, _ => exact refused _ _
  | translate | rotate =>
    match args, h with
    | [_, _, _], .cons x _ (.cons y _ (.cons z _ .nil)) =>
      exact x.whole.number.bind fun _ => y.whole.number.bind fun _ =>
        z.whole.number.bind fun _ => comes_pure _
    | [], _ | [_], _ | [_, _], _ | _ :: _ :: _ :: _ :: _, _ => exact refused _ _
  | loop =>
    match args, h with
    | _ :: _, .cons _ body _ => exact (onward_ended body).bind fun _ => comes_pure _
    | [], _ => exact refused _ _
  | repetition =>
    match args, h with
    | _ :: _ :: _, .cons limit _ (.cons _ body _) =>
      exact limit.whole.number.bind fun _ => (onward_ended body).bind fun _ => comes_pure _
    | [], _ | [_], _ => exact refused _ _
  | emit =>
    match args, h with
    | _ :: _ :: _ :: _ :: _, .cons count _ (.cons times _ (.cons copies _ (.cons _ body _))) =>
      exact count.whole.number.bind fun _ => times.whole.number.bind fun _ =>
        copies.whole.number.bind fun _ => (onward_ended body).bind fun _ => comes_pure _
    | [], _ | [_], _ | [_, _], _ | [_, _, _], _ => exact refused _ _
  | block =>
    match args, h with
    | _ :: _, h => exact (tracks_ended h).bind fun _ => comes_pure _
    | [], _ => exact refused _ _
  | choice mode =>
    match args, h with
    | _ :: _, h => exact (alternatives_ended h).bind fun _ => comes_pure _
    | [], _ => exact refused _ _
  | range mode =>
    match args, h with
    | [_, _], .cons low _ (.cons high _ .nil) =>
      exact low.whole.number.bind fun _ => high.whole.number.bind fun _ => comes_pure _
    | [], _ | [_], _ | _ :: _ :: _ :: _, _ => exact refused _ _

/-- Alternatives are handed the same arguments, and lie in what they are alternatives of. -/
theorem EndAll.withArguments (h : EndAll args) (m : Meaning α) :
    Comes (fun n => (nested n).withArguments args m)
      (m.withArguments (Term.arguments args)) := by
  induction m using Meaning.induction with
  | operator op => exact Comes.call (h.apply op)
  | choice mode ms ih =>
    cases h with
    | nil => exact Comes.call (comes_ended _)
    | cons =>
      rw [Term.arguments, Meaning.withArguments, Meaning.withArgumentsAll_eq_mapM]
      exact Comes.call ((Comes.mapM ih).bind fun _ => comes_pure _)
  | number | easing | model =>
    refine Comes.call ?_
    cases h with
    | nil => exact comes_ended _
    | cons _ body _ => exact (onward_ended body).bind fun _ => comes_pure _
  | behavior =>
    refine Comes.call ?_
    cases h with
    | nil => exact comes_ended _
    | cons => exact refused (.arity (Meaning.describe _) .never) _

end Arguments

theorem resolve_list_cons {head : Term α} {args : List (Term α)} (hh : Ends head)
    (ha : EndAll args) : Ends (.list (head :: args)) := by
  rw [Ends, Term.meaning_list_cons]
  exact Comes.call (hh.bind fun m => ha.withArguments m)

/-- What stands behind a term is shorter than the list it stands in. -/
theorem EndAll.of_deep {ts : List (Term α)} (h : ∀ t ∈ ts, EndsDeep t) : EndAll ts := by
  induction ts with
  | nil => exact .nil
  | cons t ts ih =>
    obtain ⟨first, later⟩ := List.forall_mem_cons.1 h
    have behind := ih later
    refine .cons first ?_ behind
    cases ts with
    | nil => exact first.whole
    | cons => exact resolve_list_cons first.whole behind

/-- By induction on the term. A list that is made anew of arguments is not one of its parts, but
its elements are. -/
theorem endsDeep (t : Term α) : EndsDeep t := by
  induction t with
  | number value =>
    exact ⟨Comes.call (comes_ended _), by simp⟩
  | symbol name =>
    refine ⟨Comes.call ?_, by simp⟩
    simp only [nested, resolve, Term.meaning]
    cases (Builtin.find? name : Option (Meaning α)) <;> exact comes_ended _
  | list ts ih =>
    refine ⟨?_, ?_⟩
    · cases ts with
      | nil => exact Comes.call (comes_ended _)
      | cons head args =>
        obtain ⟨first, later⟩ := List.forall_mem_cons.1 ih
        exact resolve_list_cons first.whole (.of_deep later)
    · rintro _ ⟨⟩ u hu
      exact (ih u hu).whole

theorem compile_ended : ∀ p : Program α, Comes (fun n => compile (nested n) p) p.compile
  | [statement] => (endsDeep statement).whole.behavior
  | [] => comes_ended _
  | _ :: _ :: _ =>
    (Comes.mapM fun (t : Term α) _ => (endsDeep t).whole.behavior).bind fun _ => comes_pure _

end Compiling

open Compiling (Comes nested)

/-- To compile a program by plain recursion, in which lists are made anew of arguments, choices
resolve the same arguments for each alternative, and operators that are asked for a kind are
applied to nothing, always comes to a generator or to an error: to the one that the program
means. So does each part of that recursion, whatever it is handed. -/
theorem compiling_ends {α : Type} [Scalar α] :
    (∀ p : Program α,
      ((∃ gen, Comes (fun n => Compiling.compile (nested n) p) (.ok gen)) ∨
        ∃ e, Comes (fun n => Compiling.compile (nested n) p) (.error e)) ∧
      Comes (fun n => Compiling.compile (nested n) p) p.compile) ∧
    (∀ t : Term α, Comes (fun n => (nested n).resolve t) t.meaning) ∧
    (∀ (args : List (Term α)) (m : Meaning α), Comes (fun n => (nested n).withArguments args m)
      (m.withArguments (Term.arguments args))) ∧
    (∀ (op : Operator) (args : List (Term α)), Comes (fun n => (nested n).apply op args)
      (op.apply (Term.arguments args))) ∧
    (∀ args : List (Term α), Comes (fun n => (nested n).rest args)
      (Term.standalone args).behavior) ∧
    ∀ {T : Type} (q : Meaning.Query α T) (m : Meaning α), Comes (fun n => (nested n).query q m)
      (m.ask q) := by
  have ends : ∀ t : Term α, Compiling.Ends t := fun t => (Compiling.endsDeep t).whole
  have all : ∀ args : List (Term α), Compiling.EndAll args :=
    fun args => .of_deep fun t _ => Compiling.endsDeep t
  refine ⟨fun p => ?_, ends, fun args => (all args).withArguments,
    fun op args => (all args).apply op, fun args => (ends _).rest, Compiling.query_ended⟩
  have compiled := Compiling.compile_ended p
  refine ⟨?_, compiled⟩
  cases same : p.compile with
  | ok gen => exact .inl ⟨gen, same ▸ compiled⟩
  | error e => exact .inr ⟨e, same ▸ compiled⟩

end ParticlePatterns
