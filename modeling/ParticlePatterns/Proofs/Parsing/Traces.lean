import ParticlePatterns.Proofs.Parsing.Repetition

/-!
# Traces of parsers

A traced parser is a parser together with what it leaves behind: the rules that it enters, in
the order in which it enters them, and how many parsers are at work inside of each other. A
rule may be deferred, that is, looked up only where it is entered, and only so can rules go
round in a circle. Where each deferred entry lies behind all that were entered before, something
has been read every time round.
-/

set_option autoImplicit false

namespace ParticlePatterns.Parsing

structure Entry (R : Type) where
  rule : R
  offset : Nat
  deferred : Bool
deriving DecidableEq, Repr

structure Traced (R T : Type) where
  parser : Parser T
  entries : Cursor → List (Entry R)
  /-- How many parsers are at most inside of each other, this one included. -/
  depth : Cursor → Nat

namespace Traced

variable {R T U : Type}

def read (p : Parser T) : Traced R T where
  parser := p
  entries := fun _ => []
  depth := fun _ => 1

def bind (p : Traced R T) (next : T → Traced R U) : Traced R U where
  parser := p.parser.bind fun value => (next value).parser
  entries := fun here => p.entries here ++ match p.parser here with
    | .ok value there => (next value).entries there
    | .fail _ _ => []
    | .exhausted => []
  depth := fun here => max (p.depth here) (match p.parser here with
    | .ok value there => (next value).depth there
    | .fail _ _ => 0
    | .exhausted => 0) + 1

def map (f : T → U) (p : Traced R T) : Traced R U :=
  p.bind fun value => read (.pure (f value))

def andThen (p : Traced R T) (q : Traced R U) : Traced R U :=
  p.bind fun _ => q

def skip (p : Traced R T) (q : Traced R U) : Traced R T :=
  p.bind fun value => q.map fun _ => value

def label (p : Traced R T) (expected : String) : Traced R T where
  parser := p.parser.label expected
  entries := p.entries
  depth := fun here => p.depth here + 1

def tried (here : Cursor) : List (Traced R T) → List (Traced R T)
  | [] => []
  | p :: rest => p :: match p.parser here with
    | .ok _ _ => []
    | .fail _ stop => if stop.offset ≠ here.offset then [] else tried here rest
    | .exhausted => []

def choice (alternatives : List (Traced R T)) : Traced R T where
  parser := .choice (alternatives.map parser)
  entries := fun here => (tried here alternatives).flatMap fun p => p.entries here
  depth := fun here => ((tried here alternatives).map fun p => p.depth here).foldr max 0 + 1

def many (p : Traced R T) : Traced R (List T) where
  parser := p.parser.many
  entries := fun here => (p.parser.visits (here.rest.length + 1) here).flatMap p.entries
  depth := fun here =>
    ((p.parser.visits (here.rest.length + 1) here).map p.depth).foldr max 0 + 1

def many1 (p : Traced R T) : Traced R (List T) :=
  p.bind fun value => p.many.map (value :: ·)

def enter (rule : R) (deferred : Bool) (p : Traced R T) : Traced R T where
  parser := p.parser
  entries := fun here => ⟨rule, here.offset, deferred⟩ :: p.entries here
  depth := fun here => p.depth here + 1

def unroll (body : Traced R T → Traced R T) : Nat → Traced R T
  | 0 => ⟨fun _ => .exhausted, fun _ => [], fun _ => 0⟩
  | levels + 1 => body (unroll body levels)

def fix (body : Traced R T → Traced R T) : Traced R T where
  parser := fun here => (unroll body (here.rest.length + 1)).parser here
  entries := fun here => (unroll body (here.rest.length + 1)).entries here
  depth := fun here => (unroll body (here.rest.length + 1)).depth here

/-! A trace takes nothing from the parser it belongs to, and adds nothing. -/

@[simp] theorem parser_bind (p : Traced R T) (next : T → Traced R U) :
    (p.bind next).parser = p.parser.bind fun value => (next value).parser := rfl

theorem parser_unroll {body : Traced R T → Traced R T} {plain : Parser T → Parser T}
    (h : ∀ p, (body p).parser = plain p.parser) (levels : Nat) :
    (unroll body levels).parser = .unroll plain levels := by
  induction levels with
  | zero => rfl
  | succ levels ih =>
    rw [unroll, h, ih]
    rfl

theorem parser_fix {body : Traced R T → Traced R T} {plain : Parser T → Parser T}
    (h : ∀ p, (body p).parser = plain p.parser) : (fix body).parser = .fix plain := by
  funext here
  show (unroll body (here.rest.length + 1)).parser here = _
  rw [parser_unroll h]
  rfl

end Traced

end ParticlePatterns.Parsing
