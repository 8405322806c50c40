import ParticlePatterns.Parsing.Cursor

/-!
# Failures

Where a text stopped being readable and what was expected there.
-/

set_option autoImplicit false

namespace ParticlePatterns.Parsing

structure Failure where
  line : Nat
  column : Nat
  offset : Nat
  expected : String
deriving DecidableEq, Repr

namespace Failure

/-- Two failures at one place expect either thing. A failure elsewhere, or one that
expects the same, adds nothing. -/
def merge (first second : Failure) : Failure :=
  if first.offset ≠ second.offset ∨ first.expected = second.expected then first
  else { first with expected := first.expected ++ " or " ++ second.expected }

@[simp] theorem merge_offset (first second : Failure) :
    (first.merge second).offset = first.offset := by
  unfold merge
  split <;> rfl

def message (f : Failure) : String :=
  s!"line {f.line}, column {f.column}: expected {f.expected}"

end Failure

def Cursor.expected (here : Cursor) (what : String) : Failure :=
  ⟨here.line, here.column, here.offset, what⟩

end ParticlePatterns.Parsing
