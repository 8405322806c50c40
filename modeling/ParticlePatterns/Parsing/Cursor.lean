/-!
# Cursors

A place in a text: what is left to read, how many bytes were read, and the line
and column of the next character, both counted from one. A newline ends its
line and every other character takes one column.
-/

set_option autoImplicit false

namespace ParticlePatterns.Parsing

structure Cursor where
  rest : List Char
  offset : Nat
  line : Nat
  column : Nat
deriving DecidableEq, Repr

namespace Cursor

def ofText (text : List Char) : Cursor :=
  ⟨text, 0, 1, 1⟩

def step (here : Cursor) : Cursor :=
  match here.rest with
  | [] => here
  | c :: rest =>
      if c = '\n' then ⟨rest, here.offset + c.utf8Size, here.line + 1, 1⟩
      else ⟨rest, here.offset + c.utf8Size, here.line, here.column + 1⟩

def advance (here : Cursor) : Nat → Cursor
  | 0 => here
  | count + 1 => here.step.advance count

def charactersIn (bytes : Nat) : List Char → Nat
  | [] => 0
  | c :: rest => if bytes = 0 then 0 else charactersIn (bytes - c.utf8Size) rest + 1

def advanceBytes (bytes : Nat) (here : Cursor) : Cursor :=
  here.advance (charactersIn bytes here.rest)

def atEnd (here : Cursor) : Bool :=
  here.rest.isEmpty

@[simp] theorem ofText_rest (text : List Char) : (ofText text).rest = text := rfl

theorem atEnd_iff (here : Cursor) : here.atEnd = true ↔ here.rest = [] := by
  simp [atEnd]

@[simp] theorem step_rest (here : Cursor) : here.step.rest = here.rest.tail := by
  obtain ⟨_ | ⟨c, rest⟩, offset, line, column⟩ := here
  · rfl
  · by_cases h : c = '\n' <;> simp [step, h]

theorem offset_le_step (here : Cursor) : here.offset ≤ here.step.offset := by
  obtain ⟨_ | ⟨c, rest⟩, offset, line, column⟩ := here
  · exact Nat.le_refl offset
  · by_cases h : c = '\n' <;> simp [step, h]

@[simp] theorem advance_rest (here : Cursor) (count : Nat) :
    (here.advance count).rest = here.rest.drop count := by
  induction count generalizing here with
  | zero => rfl
  | succ count ih => rw [advance, ih, step_rest, List.drop_tail]

theorem offset_le_advance (here : Cursor) (count : Nat) :
    here.offset ≤ (here.advance count).offset := by
  induction count generalizing here with
  | zero => exact Nat.le_refl here.offset
  | succ count ih => exact Nat.le_trans here.offset_le_step (ih here.step)

theorem advance_add (here : Cursor) (first second : Nat) :
    here.advance (first + second) = (here.advance first).advance second := by
  induction first generalizing here with
  | zero => rw [Nat.zero_add, advance]
  | succ first ih => rw [Nat.succ_add, advance, ih, advance]

end Cursor

end ParticlePatterns.Parsing
