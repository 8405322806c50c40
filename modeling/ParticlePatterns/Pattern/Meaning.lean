import ParticlePatterns.Pattern.Operator

/-!
# Meanings of terms

Every term means a number, an easing, a model, a behavior, an operator or a
choice among such. A meaning is not of one kind for good: it is asked for the kind
that is needed where it stands. A choice is asked of each of its alternatives, and
an operator stands for itself without arguments.
-/

set_option autoImplicit false

namespace ParticlePatterns

inductive Meaning (α : Type) : Type
  | number (gen : Gen α α)
  | easing (easing : Easing)
  | model (model : Model)
  | behavior (gen : Gen α (Behavior α))
  | operator (op : Operator)
  | choice (mode : Mode) (alternatives : List (Meaning α))

abbrev Resolved (α : Type) : Type :=
  Except (CompileError α) (Meaning α)

structure Argument (α : Type) where
  term : Term α
  meaning : Thunk (Resolved α)
  /-- The meanings of its elements, if it is a list. -/
  elements : Option (List (Thunk (Resolved α)))
  /-- The behavior that it makes together with all the arguments after it. -/
  onward : Thunk (Except (CompileError α) (Gen α (Behavior α)))

namespace Operator

variable {α : Type} [Scalar α]

def alone : Operator → Resolved α
  | close => .ok (.behavior (.constant (.switch .close)))
  | op => .error (op.arityError 0)

end Operator

namespace Meaning

variable {α : Type}

def describe : Meaning α → String
  | number _ => "a number"
  | easing e => "easing `" ++ e.name ++ "`"
  | model m => "model `" ++ m.name ++ "`"
  | behavior _ => "a behavior"
  | operator op => "operator `" ++ op.name ++ "`"
  | choice _ _ => "a choice"

structure Query (α T : Type) where
  kind : Kind
  extract : Meaning α → Option (Gen α T)

def numbers : Query α α where
  kind := .number
  extract
    | number gen => some gen
    | _ => none

def models : Query α Model where
  kind := .model
  extract
    | model m => some (.constant m)
    | _ => none

def behaviors : Query α (Behavior α) where
  kind := .behavior
  extract
    | behavior gen => some gen
    | _ => none

def Query.direct {T : Type} (q : Query α T) (m : Meaning α) :
    Except (CompileError α) (Gen α T) :=
  match q.extract m with
  | some gen => .ok gen
  | none => .error (.kind q.kind m.describe)

variable [Scalar α]

mutual
def ask {T : Type} (q : Query α T) : Meaning α → Except (CompileError α) (Gen α T)
  | operator op => match (op.alone : Resolved α) with
    | .ok m => q.direct m
    | .error e => .error e
  | choice mode alternatives => match askAll q alternatives with
    | .ok gens => .ok (.select mode gens)
    | .error e => .error e
  | m => q.direct m
def askAll {T : Type} (q : Query α T) :
    List (Meaning α) → Except (CompileError α) (List (Gen α T))
  | [] => .ok []
  | m :: rest => match ask q m with
    | .ok gen => match askAll q rest with
      | .ok gens => .ok (gen :: gens)
      | .error e => .error e
    | .error e => .error e
end

theorem askAll_eq_mapM {T : Type} (q : Query α T) (ms : List (Meaning α)) :
    askAll q ms = ms.mapM (ask q) := by
  induction ms with
  | nil => rfl
  | cons m ms ih =>
    rw [askAll, ih, List.mapM_cons]
    cases ask q m <;> cases ms.mapM (ask q) <;> rfl

end Meaning

namespace Argument

variable {α : Type} [Scalar α]

def ask {T : Type} (a : Argument α) (q : Meaning.Query α T) :
    Except (CompileError α) (Gen α T) :=
  a.meaning.get >>= Meaning.ask q

def number (a : Argument α) : Except (CompileError α) (Gen α α) :=
  a.ask Meaning.numbers

def track (a : Argument α) : Except (CompileError α) (Gen α (Behavior α)) :=
  match a.elements with
  | none => .error (.malformedBlock a.term)
  | some statements => do
      let gens ← statements.mapM fun m => m.get >>= Meaning.ask Meaning.behaviors
      pure ((Gen.all gens).map .sequence)

end Argument

namespace Operator

variable {α : Type} [Scalar α]

def ofVector (make : Vec3 α → Behavior α) (x y z : Gen α α) : Gen α (Behavior α) :=
  x.bind fun x => y.bind fun y => z.map fun z => make ⟨x, y, z⟩

def apply (op : Operator) (args : List (Argument α)) :
    Except (CompileError α) (Meaning α) :=
  match op, args with
  | modify modifier, [operand] => do
      let operand ← operand.number
      pure (.behavior (operand.map (.modify modifier.property modifier.modification)))
  | model, [name] => do
      let model ← name.ask Meaning.models
      pure (.behavior (model.map fun m => .switch (.become m)))
  | close, [] => .ok (.behavior (.constant (.switch .close)))
  | translate, [x, y, z] => do
      pure (.behavior (ofVector .translate (← x.number) (← y.number) (← z.number)))
  | rotate, [x, y, z] => do
      pure (.behavior (ofVector .rotate (← x.number) (← y.number) (← z.number)))
  | loop, first :: _ => do
      let body ← first.onward.get
      pure (.behavior fun s r => .ok (.loop body s, r))
  | repetition, limit :: first :: _ => do
      let limit ← limit.number
      let body ← first.onward.get
      pure (.behavior (limit.bind fun n s r => .ok (.repetition body s (Gen.countOf n), r)))
  | emit, count :: times :: copies :: first :: _ => do
      let count ← count.number
      let times ← times.number
      let copies ← copies.number
      let body ← first.onward.get
      pure (.behavior (count.bind fun n => times.bind fun t => copies.mapFault fun c =>
        Behavior.emission ⟨Gen.countOf n, Gen.countOf t, Gen.countOf c⟩ body))
  | block, first :: rest => do
      let tracks ← (first :: rest).mapM Argument.track
      pure (.behavior ((Gen.all tracks).map .together))
  | choice mode, first :: rest => do
      let alternatives ← (first :: rest).mapM fun a => a.meaning.get
      pure (.choice mode alternatives)
  | range mode, [low, high] => do
      pure (.number (.range mode (← low.number) (← high.number)))
  | op, args => .error (op.arityError args.length)

theorem apply_nil (op : Operator) : (op.apply [] : Resolved α) = op.alone := by
  cases op <;> rfl

end Operator

namespace Meaning

variable {α : Type} [Scalar α]

def lasting (lifespan : Gen α α) (body : Gen α (Behavior α)) : Gen α (Behavior α) :=
  lifespan.bind fun x => body.mapFault fun b => b.setLifespan (Scalar.max x 0)

def eased (easing : Easing) (body : Gen α (Behavior α)) : Gen α (Behavior α) :=
  body.mapFault fun b => b.setEasing easing

def shownAs (m : Model) (body : Gen α (Behavior α)) : Gen α (Behavior α) :=
  body.map fun b => .sequence [.switch (.become m), b]

mutual
def withArguments (args : List (Argument α)) : Meaning α → Resolved α
  | operator op => op.apply args
  | choice mode alternatives => match args with
    | [] => .ok (choice mode alternatives)
    | _ :: _ => (withArgumentsAll args alternatives).map (choice mode)
  | number lifespan => match args with
    | [] => .ok (number lifespan)
    | first :: _ => first.onward.get.map fun body => behavior (lasting lifespan body)
  | easing e => match args with
    | [] => .ok (easing e)
    | first :: _ => first.onward.get.map fun body => behavior (eased e body)
  | model m => match args with
    | [] => .ok (model m)
    | first :: _ => first.onward.get.map fun body => behavior (shownAs m body)
  | behavior gen => match args with
    | [] => .ok (behavior gen)
    | _ :: _ => .error (.arity (behavior gen).describe .never args.length)
def withArgumentsAll (args : List (Argument α)) :
    List (Meaning α) → Except (CompileError α) (List (Meaning α))
  | [] => .ok []
  | m :: rest => match withArguments args m with
    | .ok m => match withArgumentsAll args rest with
      | .ok ms => .ok (m :: ms)
      | .error e => .error e
    | .error e => .error e
end

theorem withArgumentsAll_eq_mapM (args : List (Argument α)) (ms : List (Meaning α)) :
    withArgumentsAll args ms
      = ms.mapM (m := Except (CompileError α)) (withArguments args) := by
  induction ms with
  | nil => simp [withArgumentsAll]; rfl
  | cons m ms ih =>
    rw [withArgumentsAll, ih, List.mapM_cons]
    cases withArguments args m with
    | error e => rfl
    | ok m => cases ms.mapM (m := Except (CompileError α)) (withArguments args) <;> rfl

theorem withArguments_nil (m : Meaning α) :
    withArguments [] m = match m with
      | operator op => op.alone
      | m => .ok m := by
  cases m <;> simp [withArguments, Operator.apply_nil]

end Meaning

end ParticlePatterns
