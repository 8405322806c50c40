/-!
# Terms

A pattern program is a list of terms: numbers, symbols and lists. Bracket forms
are lists headed by a reserved symbol, or a reserved symbol alone.
-/

set_option autoImplicit false

namespace ParticlePatterns

inductive Term (ν : Type) : Type
  | number (value : ν)
  | symbol (name : String)
  | list (elements : List (Term ν))
deriving Repr, Inhabited

abbrev Program (ν : Type) : Type := List (Term ν)

/-- A pair of brackets and the reserved symbols its three uses stand for. -/
structure Bracket where
  left : String
  right : String
  choice : String
  range : String
  angle : String
deriving DecidableEq, Repr

namespace Bracket

def each : Bracket := ⟨"[", "]", "each-choice", "each-range", "each-angle"⟩

def random : Bracket := ⟨"<", ">", "random-choice", "random-range", "random-angle"⟩

end Bracket

namespace Term

variable {ν : Type}

def blockHead : String := "block"

def number? : Term ν → Option ν
  | number value => some value
  | _ => none

def symbol? : Term ν → Option String
  | symbol name => some name
  | _ => none

def elements? : Term ν → Option (List (Term ν))
  | list elements => some elements
  | _ => none

def headSymbol? : Term ν → Option String
  | list (symbol name :: _) => some name
  | _ => none

def kindName : Term ν → String
  | number _ => "number"
  | symbol _ => "symbol"
  | list _ => "list"

def isList : Term ν → Bool
  | list _ => true
  | _ => false

/-- What holds of a list as soon as it holds of its elements holds of every term. -/
@[elab_as_elim, induction_eliminator]
theorem induction {P : Term ν → Prop} (number : ∀ value, P (.number value))
    (symbol : ∀ name, P (.symbol name))
    (list : ∀ elements, (∀ t ∈ elements, P t) → P (.list elements)) (t : Term ν) : P t := by
  refine @Term.rec ν P (fun ts => ∀ t ∈ ts, P t) number symbol list ?_ ?_ t
  · simp
  · intro head rest hhead hrest t ht
    rcases List.mem_cons.1 ht with rfl | ht
    · exact hhead
    · exact hrest t ht

mutual
def depth : Term ν → Nat
  | number _ => 0
  | symbol _ => 0
  | list elements => depthAll elements + 1
def depthAll : List (Term ν) → Nat
  | [] => 0
  | t :: rest => Nat.max t.depth (depthAll rest)
end

mutual
def same [BEq ν] : Term ν → Term ν → Bool
  | number a, number b => a == b
  | symbol a, symbol b => a == b
  | list a, list b => sameAll a b
  | _, _ => false
def sameAll [BEq ν] : List (Term ν) → List (Term ν) → Bool
  | [], [] => true
  | a :: as, b :: bs => a.same b && sameAll as bs
  | _, _ => false
end

end Term

end ParticlePatterns
