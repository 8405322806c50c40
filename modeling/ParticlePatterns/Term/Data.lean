import ParticlePatterns.Data.Basic
import ParticlePatterns.Number.Numeral
import ParticlePatterns.Term.Basic
import ParticlePatterns.Term.Token
import ParticlePatterns.Text.Quoted

/-!
# Programs as plain data

Numbers, symbols and lists are stored as numbers, texts and arrays. What is read
back is checked: numbers must be finite and names must be symbols, so that every
program that was loaded can be printed and read again.
-/

set_option autoImplicit false

namespace ParticlePatterns

inductive LoadError (ν : Type)
  /-- The stored program is not an array. -/
  | notProgram (found : Data ν)
  /-- Some element is neither a number nor a text nor an array of such. -/
  | notTerm
  | nonFinite (value : ν)
  | invalidSymbol (name : String)

namespace LoadError

variable {ν : Type} [Numeral ν]

def kindText : Data ν → List Char
  | .null => "null".toList
  | .boolean value => (if value then "boolean `true`" else "boolean `false`").toList
  | .integer value => s!"integer `{value}`".toList
  | .number value => "floating point `".toList ++ Numeral.writeScientific value ++ "`".toList
  | .text value => "string ".toList ++ Text.quoted value.toList
  | .array _ => "sequence".toList
  | .record _ => "map".toList

def isShape : LoadError ν → Bool
  | .notProgram _ => true
  | .notTerm => true
  | .nonFinite _ => false
  | .invalidSymbol _ => false

def message : LoadError ν → String
  | .notProgram found =>
      "JSON error: invalid type: " ++ String.ofList (kindText found) ++ ", expected a sequence"
  | .notTerm => "JSON error: data did not match any variant of untagged enum Term"
  | .nonFinite value =>
      "Malformed term data: non-finite number " ++ String.ofList (Numeral.write value)
  | .invalidSymbol name =>
      "Malformed term data: invalid symbol " ++ String.ofList (Text.quoted name.toList)

end LoadError

section

variable {ν : Type} [Numeral ν]

mutual
/-- A number that is not finite has no stored form and leaves a gap. -/
def Term.toData : Term ν → Data ν
  | .number value => if Numeral.isFinite value then .number value else .null
  | .symbol name => .text name
  | .list elements => .array (Term.allToData elements)
def Term.allToData : List (Term ν) → List (Data ν)
  | [] => []
  | t :: rest => t.toData :: Term.allToData rest
end

mutual
def Term.ofData? : Data ν → Option (Term ν)
  | .integer value => some (.number (Numeral.ofInt value))
  | .number value => some (.number value)
  | .text name => some (.symbol name)
  | .array items => (Term.allOfData? items).map .list
  | .null => none
  | .boolean _ => none
  | .record _ => none
def Term.allOfData? : List (Data ν) → Option (List (Term ν))
  | [] => some []
  | d :: rest => match Term.ofData? d, Term.allOfData? rest with
    | some t, some terms => some (t :: terms)
    | _, _ => none
end

mutual
def Term.flaw? : Term ν → Option (LoadError ν)
  | .number value => if Numeral.isFinite value then none else some (.nonFinite value)
  | .symbol name => if Token.isSymbol name then none else some (.invalidSymbol name)
  | .list elements => Term.firstFlaw? elements
def Term.firstFlaw? : List (Term ν) → Option (LoadError ν)
  | [] => none
  | t :: rest => match t.flaw? with
    | some flaw => some flaw
    | none => Term.firstFlaw? rest
end

theorem Term.allToData_eq_map (ts : List (Term ν)) :
    Term.allToData ts = ts.map Term.toData := by
  induction ts with
  | nil => rfl
  | cons t ts ih => simp [Term.allToData, ih]

theorem Term.allOfData?_eq_mapM (ds : List (Data ν)) :
    Term.allOfData? ds = ds.mapM Term.ofData? := by
  induction ds with
  | nil => rfl
  | cons d ds ih =>
    rw [Term.allOfData?, ih, List.mapM_cons]
    cases Term.ofData? d <;> cases ds.mapM Term.ofData? <;> rfl

theorem Term.firstFlaw?_eq_findSome? (ts : List (Term ν)) :
    Term.firstFlaw? ts = ts.findSome? Term.flaw? := by
  induction ts with
  | nil => rfl
  | cons t ts ih =>
    rw [Term.firstFlaw?, List.findSome?_cons, ih]
    cases t.flaw? <;> rfl

def Program.dump (p : Program ν) : Data ν :=
  .array (Term.allToData p)

def Program.load (d : Data ν) : Except (LoadError ν) (Program ν) :=
  match d with
  | .array items => match Term.allOfData? items with
    | none => .error .notTerm
    | some p => match Term.firstFlaw? p with
      | some flaw => .error flaw
      | none => .ok p
  | other => .error (.notProgram other)

end

end ParticlePatterns
