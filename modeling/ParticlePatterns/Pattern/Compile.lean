import ParticlePatterns.Pattern.Meaning

/-!
# Compiling programs

The built-in names, the meaning of every term, and the generator of behaviors
that a program stands for.
-/

set_option autoImplicit false

namespace ParticlePatterns

namespace Builtin

variable {α : Type} [Scalar α]

def table : List (String × Meaning α) :=
  (Model.all.map fun m => (m.name, .model m)) ++
  (Easing.all.map fun e => (e.name, .easing e)) ++
  [("nop", .behavior (.constant .pause))] ++
  (Operator.all.map fun op => (op.name, .operator op)) ++
  [(Bracket.each.angle, .number (.angle .each)), (Bracket.random.angle, .number (.angle .random))]

def names (α : Type) [Scalar α] : List String :=
  ((table (α := α)).map (·.1)).mergeSort fun a b => decide (a ≤ b)

def find? (name : String) : Option (Meaning α) :=
  (table.find? fun entry => entry.1 == name).map (·.2)

end Builtin

namespace Term

variable {α : Type} [Scalar α]

def asBehavior (first : Resolved α) (args : List (Argument α)) :
    Except (CompileError α) (Gen α (Behavior α)) := do
  let m ← first
  let m ← match args with
    | [] => pure m
    | _ :: _ => m.withArguments args
  m.ask Meaning.behaviors

mutual
def meaning : Term α → Resolved α
  | .number value => .ok (.number (.constant value))
  | .symbol name => match Builtin.find? name with
    | some m => .ok m
    | none => .error (.unknownIdentifier name)
  | .list [] => .error .emptyList
  | .list (head :: args) => match meaning head with
    | .ok m => m.withArguments (arguments args)
    | .error e => .error e
def arguments : List (Term α) → List (Argument α)
  | [] => []
  | t :: rest =>
      { term := t
        meaning := ⟨fun _ => meaning t⟩
        elements := elementMeanings t
        onward := ⟨fun _ => asBehavior (meaning t) (arguments rest)⟩ } :: arguments rest
def elementMeanings : Term α → Option (List (Thunk (Resolved α)))
  | .list ts => some (meanings ts)
  | .number _ => none
  | .symbol _ => none
def meanings : List (Term α) → List (Thunk (Resolved α))
  | [] => []
  | t :: rest => ⟨fun _ => meaning t⟩ :: meanings rest
end

theorem meanings_eq_map (ts : List (Term α)) :
    meanings ts = ts.map fun t => ⟨fun _ => meaning t⟩ := by
  induction ts with
  | nil => simp [meanings]
  | cons t ts ih => simp [meanings, ih]

theorem arguments_terms (ts : List (Term α)) : (arguments ts).map Argument.term = ts := by
  induction ts with
  | nil => simp [arguments]
  | cons t ts ih => simp [arguments, ih]

theorem meaning_of_mem_arguments {ts : List (Term α)} {a : Argument α} (h : a ∈ arguments ts) :
    ∃ t ∈ ts, a.meaning.get = t.meaning := by
  induction ts with
  | nil => simp [arguments] at h
  | cons t rest ih =>
    rw [arguments] at h
    obtain rfl | later := List.mem_cons.1 h
    · exact ⟨t, by simp, rfl⟩
    · obtain ⟨u, hu, same⟩ := ih later
      exact ⟨u, List.mem_cons_of_mem _ hu, same⟩

def behavior (t : Term α) : Except (CompileError α) (Gen α (Behavior α)) :=
  t.meaning >>= Meaning.ask Meaning.behaviors

end Term

variable {α : Type} [Scalar α]

def Program.compile (p : Program α) : Except (CompileError α) (Gen α (Behavior α)) :=
  match p with
  | [statement] => statement.behavior
  | statements => do
      let gens ← statements.mapM Term.behavior
      pure ((Gen.all gens).map .sequence)

end ParticlePatterns
