import Mathlib
import ParticlePatterns.Proofs.Pattern.Currying

/-!
# Outlines

What a program says apart from its numbers is its outline. Numbers are handed on into generators
and not looked at before one of these is run, so the outline decides by itself whether a program
compiles, and if not, why. The proof follows two compilers through programs of the same outline;
they may even run over different numbers. Their meanings are alike at every step: of the same
kind, and equal where they are not numbers or behaviors.
-/

set_option autoImplicit false

namespace ParticlePatterns

section Definitions

variable {ν : Type}

mutual
def Term.outline : Term ν → Term Unit
  | .number _ => .number ()
  | .symbol name => .symbol name
  | .list elements => .list (Term.outlines elements)
def Term.outlines : List (Term ν) → List (Term Unit)
  | [] => []
  | t :: rest => t.outline :: Term.outlines rest
end

def CompileError.outline : CompileError ν → CompileError Unit
  | .unknownIdentifier name => .unknownIdentifier name
  | .arity operator expected got => .arity operator expected got
  | .kind expected found => .kind expected found
  | .emptyList => .emptyList
  | .malformedBlock track => .malformedBlock track.outline

end Definitions

variable {α β T U T' U' : Type}

inductive Agree (R : T → U → Prop) :
    Except (CompileError α) T → Except (CompileError β) U → Prop
  | ok {v : T} {w : U} : R v w → Agree R (.ok v) (.ok w)
  | error {e : CompileError α} {e' : CompileError β} : e.outline = e'.outline →
      Agree R (.error e) (.error e')

abbrev Arbitrary (_ : T) (_ : U) : Prop := True

namespace Agree

variable {R : T → U → Prop} {S : T' → U' → Prop} {x : Except (CompileError α) T}
  {y : Except (CompileError β) U}

theorem bind {f : T → Except (CompileError α) T'} {g : U → Except (CompileError β) U'}
    (h : Agree R x y) (hf : ∀ v w, R v w → Agree S (f v) (g w)) : Agree S (x >>= f) (y >>= g) := by
  cases h with
  | ok related => exact hf _ _ related
  | error same => exact .error same

theorem map {f : T → T'} {g : U → U'} (h : Agree R x y) (hf : ∀ v w, R v w → S (f v) (g w)) :
    Agree S (x.map f) (y.map g) := by
  cases h with
  | ok related => exact .ok (hf _ _ related)
  | error same => exact .error same

theorem mapM {Q : T → U → Prop} {f : T → Except (CompileError α) T'}
    {g : U → Except (CompileError β) U'} {xs : List T} {ys : List U} (h : List.Forall₂ Q xs ys)
    (hf : ∀ v w, Q v w → Agree S (f v) (g w)) :
    Agree (List.Forall₂ S) (xs.mapM f) (ys.mapM g) := by
  induction h with
  | nil => exact .ok .nil
  | cons first _ ih =>
    rw [List.mapM_cons, List.mapM_cons]
    exact (hf _ _ first).bind fun _ _ head => ih.bind fun _ _ rest => .ok (.cons head rest)

end Agree

inductive Meaning.Alike : Meaning α → Meaning β → Prop
  | number {gen : Gen α α} {gen' : Gen β β} : Alike (.number gen) (.number gen')
  | easing {easing : Easing} : Alike (.easing easing) (.easing easing)
  | model {model : Model} : Alike (.model model) (.model model)
  | behavior {gen : Gen α (Behavior α)} {gen' : Gen β (Behavior β)} :
      Alike (.behavior gen) (.behavior gen')
  | operator {op : Operator} : Alike (.operator op) (.operator op)
  | choice {mode : Mode} {ms : List (Meaning α)} {ns : List (Meaning β)} :
      ms.length = ns.length → (∀ p ∈ ms.zip ns, Alike p.1 p.2) →
      Alike (.choice mode ms) (.choice mode ns)

structure Argument.Alike (a : Argument α) (b : Argument β) : Prop where
  term : a.term.outline = b.term.outline
  meaning : Agree Meaning.Alike a.meaning.get b.meaning.get
  elements : Option.Rel (List.Forall₂ fun m n => Agree Meaning.Alike m.get n.get)
    a.elements b.elements
  onward : Agree Arbitrary a.onward.get b.onward.get

namespace Meaning

variable {m : Meaning α} {n : Meaning β}

theorem Alike.describe (h : m.Alike n) : m.describe = n.describe := by
  cases h <;> rfl

theorem alike_choice {mode : Mode} {ms : List (Meaning α)} {ns : List (Meaning β)}
    (h : List.Forall₂ Alike ms ns) : Alike (.choice mode ms) (.choice mode ns) :=
  have ⟨length, each⟩ := List.forall₂_iff_zip.1 h
  .choice length fun _ hp => each hp

structure Query.Alike (q : Query α T) (q' : Query β U) : Prop where
  kind : q.kind = q'.kind
  finds {m : Meaning α} {n : Meaning β} : m.Alike n →
    (q.extract m).isSome = (q'.extract n).isSome

theorem numbers_alike : (numbers : Query α α).Alike (numbers : Query β β) :=
  ⟨rfl, fun h => by cases h <;> rfl⟩

theorem models_alike : (models : Query α Model).Alike (models : Query β Model) :=
  ⟨rfl, fun h => by cases h <;> rfl⟩

theorem behaviors_alike :
    (behaviors : Query α (Behavior α)).Alike (behaviors : Query β (Behavior β)) :=
  ⟨rfl, fun h => by cases h <;> rfl⟩

variable {q : Query α T} {q' : Query β U}

theorem Query.Alike.direct (hq : q.Alike q') (h : m.Alike n) :
    Agree Arbitrary (q.direct m) (q'.direct n) := by
  have finds := hq.finds h
  unfold Query.direct
  cases hx : q.extract m with
  | some gen =>
    rw [hx] at finds
    obtain ⟨gen', hy⟩ := Option.isSome_iff_exists.1 finds.symm
    rw [hy]
    exact .ok trivial
  | none =>
    rw [hx] at finds
    rw [Option.isSome_eq_false_iff.1 finds.symm |> Option.isNone_iff_eq_none.1]
    refine .error ?_
    rw [CompileError.outline, CompileError.outline, hq.kind, h.describe]

variable [Scalar α] [Scalar β]

theorem alone_alike (op : Operator) :
    Agree Alike (op.alone : Resolved α) (op.alone : Resolved β) := by
  cases op with
  | close => exact .ok .behavior
  | _ => exact .error rfl

theorem Alike.ask (hq : q.Alike q') (h : m.Alike n) : Agree Arbitrary (m.ask q) (n.ask q') := by
  induction h with
  | @operator op =>
    have alone : Agree Arbitrary ((op.alone : Resolved α) >>= q.direct)
        ((op.alone : Resolved β) >>= q'.direct) :=
      (alone_alike op).bind fun _ _ related => hq.direct related
    rw [Meaning.ask, Meaning.ask]
    cases op <;> exact alone
  | @choice mode ms ns length _ ih =>
    have asked := Agree.mapM (List.forall₂_iff_zip.2 ⟨length, fun hp => ih _ hp⟩)
      (f := Meaning.ask q) (g := Meaning.ask q') fun _ _ agree => agree
    rw [ask_choice, ask_choice]
    exact asked.map fun _ _ _ => trivial
  | number | easing | model | behavior => simpa only [Meaning.ask] using hq.direct (by constructor)

end Meaning

variable [Scalar α] [Scalar β]

namespace Argument.Alike

variable {a : Argument α} {b : Argument β}

theorem ask {q : Meaning.Query α T} {q' : Meaning.Query β U} (hq : q.Alike q') (h : a.Alike b) :
    Agree Arbitrary (a.ask q) (b.ask q') :=
  h.meaning.bind fun _ _ alike => alike.ask hq

theorem number (h : a.Alike b) : Agree Arbitrary a.number b.number :=
  h.ask Meaning.numbers_alike

theorem track (h : a.Alike b) : Agree Arbitrary a.track b.track := by
  have elements := h.elements
  unfold Argument.track
  generalize a.elements = x at elements ⊢
  generalize b.elements = y at elements ⊢
  cases elements with
  | none => exact .error (congrArg CompileError.malformedBlock h.term)
  | some each =>
    have asked := Agree.mapM each (S := Arbitrary) fun m n agree =>
      agree.bind fun _ _ alike => alike.ask Meaning.behaviors_alike
    exact asked.bind fun _ _ _ => .ok trivial

end Argument.Alike

namespace Operator

variable {args : List (Argument α)} {args' : List (Argument β)}

omit [Scalar α] [Scalar β] in
theorem refused_alike (op : Operator) {R : T → U → Prop} (h : args.length = args'.length) :
    Agree R (.error (op.arityError args.length : CompileError α))
      (.error (op.arityError args'.length : CompileError β)) := by
  rw [h]
  exact .error rfl

/-- Whether an operator can be applied depends on how many arguments there are and on whether
each of these is of the kind that is needed. -/
theorem apply_alike (op : Operator) (h : List.Forall₂ Argument.Alike args args') :
    Agree Meaning.Alike (op.apply args) (op.apply args') := by
  have length := h.length_eq
  cases op with
  | modify modifier =>
    match args, args', h with
    | [_], [_], .cons operand .nil => exact operand.number.bind fun _ _ _ => .ok .behavior
    | [], [], _ | _ :: _ :: _, _ :: _ :: _, _ => exact refused_alike _ length
  | model =>
    match args, args', h with
    | [_], [_], .cons name .nil =>
      exact (name.ask Meaning.models_alike).bind fun _ _ _ => .ok .behavior
    | [], [], _ | _ :: _ :: _, _ :: _ :: _, _ => exact refused_alike _ length
  | close =>
    match args, args', h with
    | [], [], _ => exact .ok .behavior
    | _ :: _, _ :: _, _ => exact refused_alike _ length
  | translate | rotate =>
    match args, args', h with
    | [_, _, _], [_, _, _], .cons x (.cons y (.cons z .nil)) =>
      exact x.number.bind fun _ _ _ => y.number.bind fun _ _ _ => z.number.bind fun _ _ _ =>
        .ok .behavior
    | [], [], _ | [_], [_], _ | [_, _], [_, _], _
    | _ :: _ :: _ :: _ :: _, _ :: _ :: _ :: _ :: _, _ => exact refused_alike _ length
  | loop =>
    match args, args', h with
    | _ :: _, _ :: _, .cons first _ => exact first.onward.bind fun _ _ _ => .ok .behavior
    | [], [], _ => exact refused_alike _ length
  | repetition =>
    match args, args', h with
    | _ :: _ :: _, _ :: _ :: _, .cons limit (.cons first _) =>
      exact limit.number.bind fun _ _ _ => first.onward.bind fun _ _ _ => .ok .behavior
    | [], [], _ | [_], [_], _ => exact refused_alike _ length
  | emit =>
    match args, args', h with
    | _ :: _ :: _ :: _ :: _, _ :: _ :: _ :: _ :: _,
        .cons count (.cons times (.cons copies (.cons first _))) =>
      exact count.number.bind fun _ _ _ => times.number.bind fun _ _ _ =>
        copies.number.bind fun _ _ _ => first.onward.bind fun _ _ _ => .ok .behavior
    | [], [], _ | [_], [_], _ | [_, _], [_, _], _ | [_, _, _], [_, _, _], _ =>
      exact refused_alike _ length
  | block =>
    match args, args', h with
    | _ :: _, _ :: _, h =>
      exact (Agree.mapM h fun _ _ alike => alike.track).bind fun _ _ _ => .ok .behavior
    | [], [], _ => exact refused_alike _ length
  | choice mode =>
    match args, args', h with
    | _ :: _, _ :: _, h =>
      exact (Agree.mapM h fun _ _ alike => alike.meaning).bind fun _ _ alternatives =>
        .ok (Meaning.alike_choice alternatives)
    | [], [], _ => exact refused_alike _ length
  | range mode =>
    match args, args', h with
    | [_, _], [_, _], .cons low (.cons high .nil) =>
      exact low.number.bind fun _ _ _ => high.number.bind fun _ _ _ => .ok .number
    | [], [], _ | [_], [_], _ | _ :: _ :: _ :: _, _ :: _ :: _ :: _, _ =>
      exact refused_alike _ length

end Operator

namespace Meaning

variable {args : List (Argument α)} {args' : List (Argument β)}

theorem Alike.withArguments {m : Meaning α} {n : Meaning β} (h : m.Alike n)
    (ha : List.Forall₂ Argument.Alike args args') :
    Agree Alike (m.withArguments args) (n.withArguments args') := by
  have length := ha.length_eq
  cases ha with
  | nil =>
    rw [withArguments_nil, withArguments_nil]
    cases h with
    | operator => exact alone_alike _
    | number => exact .ok .number
    | easing => exact .ok .easing
    | model => exact .ok .model
    | behavior => exact .ok .behavior
    | choice length each => exact .ok (.choice length each)
  | cons first rest =>
    induction h with
    | operator =>
      rw [Meaning.withArguments, Meaning.withArguments]
      exact Operator.apply_alike _ (.cons first rest)
    | choice same _ ih =>
      rw [Meaning.withArguments, Meaning.withArguments, withArgumentsAll_eq_mapM,
        withArgumentsAll_eq_mapM]
      exact (Agree.mapM (List.forall₂_iff_zip.2 ⟨same, fun hp => ih _ hp⟩)
        fun _ _ agree => agree).map fun _ _ alternatives => alike_choice alternatives
    | number | easing | model =>
      rw [Meaning.withArguments, Meaning.withArguments]
      exact first.onward.map fun _ _ _ => .behavior
    | behavior =>
      rw [Meaning.withArguments, Meaning.withArguments, length]
      exact .error rfl

end Meaning

namespace Builtin

/-- The built-in names mean the same over all numbers. -/
theorem table_alike : List.Forall₂ (fun x y => x.1 = y.1 ∧ x.2.Alike y.2)
    (table (α := α)) (table (α := β)) := by
  have listed : ∀ {T : Type} {f : T → String × Meaning α} {g : T → String × Meaning β}
      (xs : List T), (∀ x, (f x).1 = (g x).1 ∧ (f x).2.Alike (g x).2) →
      List.Forall₂ (fun x y => x.1 = y.1 ∧ x.2.Alike y.2) (xs.map f) (xs.map g) := by
    intro T f g xs h
    rw [List.forall₂_map_left_iff, List.forall₂_map_right_iff]
    exact List.forall₂_same.2 fun x _ => h x
  unfold table
  refine List.rel_append (List.rel_append (List.rel_append (List.rel_append ?_ ?_) ?_) ?_) ?_
  · exact listed _ fun _ => ⟨rfl, .model⟩
  · exact listed _ fun _ => ⟨rfl, .easing⟩
  · exact .cons ⟨rfl, .behavior⟩ .nil
  · exact listed _ fun _ => ⟨rfl, .operator⟩
  · exact .cons ⟨rfl, .number⟩ (.cons ⟨rfl, .number⟩ .nil)

theorem find_alike (name : String) :
    Option.Rel Meaning.Alike (find? name : Option (Meaning α))
      (find? name : Option (Meaning β)) := by
  unfold find?
  generalize hx : table (α := α) = xs
  generalize hy : table (α := β) = ys
  have pairs := table_alike (α := α) (β := β)
  rw [hx, hy] at pairs
  clear hx hy
  induction pairs with
  | nil => exact .none
  | @cons x y _ _ first _ ih =>
    rw [List.find?_cons, List.find?_cons, ← first.1]
    cases x.1 == name with
    | true => exact .some first.2
    | false => exact ih

end Builtin

namespace Term

structure Alike (t : Term α) (u : Term β) : Prop where
  meaning : Agree Meaning.Alike t.meaning u.meaning
  elements : Option.Rel (List.Forall₂ fun m n => Agree Meaning.Alike m.get n.get)
    t.elementMeanings u.elementMeanings

theorem meaning_list_cons (head : Term α) (args : List (Term α)) :
    (list (head :: args)).meaning =
      (head.meaning >>= fun m => m.withArguments (arguments args) :
        Except (CompileError α) _) := by
  rw [meaning]
  cases head.meaning <;> rfl

theorem asBehavior_alike {first : Resolved α} {first' : Resolved β} {args : List (Argument α)}
    {args' : List (Argument β)} (hf : Agree Meaning.Alike first first')
    (ha : List.Forall₂ Argument.Alike args args') :
    Agree Arbitrary (asBehavior first args) (asBehavior first' args') := by
  cases ha with
  | nil => exact hf.bind fun _ _ alike => alike.ask Meaning.behaviors_alike
  | cons a rest =>
    exact hf.bind fun _ _ alike => (alike.withArguments (.cons a rest)).bind fun _ _ after =>
      after.ask Meaning.behaviors_alike

theorem arguments_alike {ts : List (Term α)} {us : List (Term β)}
    (h : List.Forall₂ (fun t u => t.outline = u.outline ∧ t.Alike u) ts us) :
    List.Forall₂ Argument.Alike (arguments ts) (arguments us) := by
  induction h with
  | nil => exact .nil
  | cons first _ ih =>
    obtain ⟨outline, alike⟩ := first
    exact .cons ⟨outline, alike.meaning, alike.elements, asBehavior_alike alike.meaning ih⟩ ih

theorem outlines_eq_map {ν : Type} (ts : List (Term ν)) : outlines ts = ts.map outline := by
  induction ts with
  | nil => rfl
  | cons t ts ih => rw [outlines, ih, List.map_cons]

omit [Scalar α] [Scalar β] in
theorem forall₂_of_outlines {ts : List (Term α)} {us : List (Term β)}
    (h : ts.map outline = us.map outline) :
    List.Forall₂ (fun t u => t.outline = u.outline) ts us := by
  rwa [← List.forall₂_eq_eq_eq, List.forall₂_map_left_iff, List.forall₂_map_right_iff] at h

/-- Terms of the same outline mean the same apart from what is a number or behavior, or mean
nothing for the same reason. -/
theorem alike_of_outline {t : Term α} : ∀ {u : Term β}, t.outline = u.outline → t.Alike u := by
  induction t with
  | number value =>
    intro u h
    cases u with
    | number value' => exact ⟨.ok .number, .none⟩
    | _ => cases h
  | symbol name =>
    intro u h
    cases u with
    | symbol name' =>
      cases h
      refine ⟨?_, .none⟩
      have found := Builtin.find_alike (α := α) (β := β) name
      rw [meaning, meaning]
      generalize (Builtin.find? name : Option (Meaning α)) = x at found ⊢
      generalize (Builtin.find? name : Option (Meaning β)) = y at found ⊢
      cases found with
      | some alike => exact .ok alike
      | none => exact .error rfl
    | _ => cases h
  | list ts ih =>
    intro u h
    cases u with
    | list us =>
      have outlines : ts.map outline = us.map outline := by
        simpa only [outline, outlines_eq_map, list.injEq] using h
      have pairs : List.Forall₂ (fun t u => t.outline = u.outline ∧ t.Alike u) ts us := by
        obtain ⟨length, each⟩ := List.forall₂_iff_zip.1 (forall₂_of_outlines outlines)
        exact List.forall₂_iff_zip.2
          ⟨length, fun hp => ⟨each hp, ih _ (List.of_mem_zip hp).1 (each hp)⟩⟩
      constructor
      · cases pairs with
        | nil => exact .error rfl
        | cons head args =>
          rw [meaning_list_cons, meaning_list_cons]
          exact head.2.meaning.bind fun _ _ alike => alike.withArguments (arguments_alike args)
      · rw [elementMeanings, elementMeanings, meanings_eq_map, meanings_eq_map]
        refine .some ?_
        rw [List.forall₂_map_left_iff, List.forall₂_map_right_iff]
        exact pairs.imp fun _ _ related => related.2.meaning
    | _ => cases h

theorem behavior_alike {t : Term α} {u : Term β} (h : t.outline = u.outline) :
    Agree Arbitrary t.behavior u.behavior :=
  (alike_of_outline h).meaning.bind fun _ _ alike => alike.ask Meaning.behaviors_alike

end Term

theorem Program.compile_alike {p : Program α} {q : Program β}
    (h : p.map Term.outline = q.map Term.outline) : Agree Arbitrary p.compile q.compile := by
  have pairs := Term.forall₂_of_outlines h
  have several : Agree (List.Forall₂ Arbitrary) (p.mapM Term.behavior) (q.mapM Term.behavior) :=
    Agree.mapM pairs fun _ _ outline => Term.behavior_alike outline
  match p, q, pairs with
  | [_], [_], .cons only .nil => exact Term.behavior_alike only
  | [], [], _ | _ :: _ :: _, _ :: _ :: _, _ => exact several.bind fun _ _ _ => .ok trivial

/-- No number decides whether a program compiles: of two programs with the same outline both
compile, or both are refused for the same reason, where a term that the reason shows has the same
outline again. This goes for numbers of any two kinds. -/
theorem outline_decides {p : Program α} {q : Program β}
    (h : p.map Term.outline = q.map Term.outline) :
    (∃ gen gen', p.compile = .ok gen ∧ q.compile = .ok gen') ∨
      ∃ e e', p.compile = .error e ∧ q.compile = .error e' ∧ e.outline = e'.outline := by
  have agree := Program.compile_alike h
  generalize p.compile = x at agree ⊢
  generalize q.compile = y at agree ⊢
  cases agree with
  | ok => exact .inl ⟨_, _, rfl, rfl⟩
  | error same => exact .inr ⟨_, _, rfl, rfl, same⟩

open Exact (real)

/-- A number of children that no batch has, and the number of a track that is none. -/
theorem outline_decides_emission :
    let emission (x : Exact) : Program Exact :=
      [.list [.symbol "emit", .number x, .number x, .number x, .number x, .symbol "nop"]]
    let track (x : Exact) : Program Exact := [.list [.symbol "block", .number x]]
    (emission (real 2)).map Term.outline = (emission Scalar.infinity).map Term.outline ∧
      (track (real 2)).map Term.outline = (track .undefined).map Term.outline ∧
      (∃ gen gen', (emission (real 2)).compile = .ok gen ∧
        (emission Scalar.infinity).compile = .ok gen') ∧
      ∃ e e', (track (real 2)).compile = .error e ∧ (track .undefined).compile = .error e' ∧
        e.outline = e'.outline := by
  intro emission track
  have same : (emission (real 2)).map Term.outline =
      (emission Scalar.infinity).map Term.outline := rfl
  have same' : (track (real 2)).map Term.outline = (track .undefined).map Term.outline := rfl
  refine ⟨same, same', (outline_decides same).resolve_right ?_,
    (outline_decides same').resolve_left ?_⟩
  · rintro ⟨e, _, refused, _⟩
    cases refused
  · rintro ⟨gen, _, compiled, _⟩
    cases compiled

end ParticlePatterns
