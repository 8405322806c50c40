import ParticlePatterns.Parsing.Failure
import ParticlePatterns.Parsing.Recogniser

/-!
# Parser combinators

A parser moves a cursor and gives a value or a failure. Only failures that
moved nothing are backtracked over: a failure after the cursor moved is final.
Recursion is bounded by the text that is left; a parser that would go on without
reading gives `exhausted` instead of an answer.
-/

set_option autoImplicit false

namespace ParticlePatterns.Parsing

/-- A failed run keeps the cursor where it stood when the parser gave up, which may
be behind the place of the failure itself. -/
inductive Outcome (T : Type)
  | ok (value : T) (next : Cursor)
  | fail (failure : Failure) (stop : Cursor)
  | exhausted
deriving Repr

def Parser (T : Type) : Type := Cursor → Outcome T

namespace Parser

variable {T U : Type}

def pure (value : T) : Parser T :=
  fun here => .ok value here

def fail (expected : String) : Parser T :=
  fun here => .fail (here.expected expected) here

def bind (p : Parser T) (next : T → Parser U) : Parser U :=
  fun here => match p here with
    | .ok value there => next value there
    | .fail failure stop => .fail failure stop
    | .exhausted => .exhausted

def map (f : T → U) (p : Parser T) : Parser U :=
  p.bind fun value => pure (f value)

@[simp] theorem pure_bind (value : T) (next : T → Parser U) :
    (pure value).bind next = next value := rfl

@[simp] theorem bind_pure (p : Parser T) : p.bind pure = p := by
  funext here
  unfold bind
  cases p here <;> rfl

theorem bind_assoc {V : Type} (p : Parser T) (f : T → Parser U) (g : U → Parser V) :
    (p.bind f).bind g = p.bind fun value => (f value).bind g := by
  funext here
  unfold bind
  cases p here <;> rfl

def andThen (p : Parser T) (q : Parser U) : Parser U :=
  p.bind fun _ => q

def skip (p : Parser T) (q : Parser U) : Parser T :=
  p.bind fun value => q.map fun _ => value

def label (p : Parser T) (expected : String) : Parser T :=
  fun here => match p here with
    | .fail failure stop =>
        if stop.offset = here.offset then .fail { failure with expected } stop
        else .fail failure stop
    | outcome => outcome

def string (text : String) : Parser String :=
  fun here =>
    if text.toList.isPrefixOf here.rest then .ok text (here.advance text.length)
    else .fail (here.expected ("\"" ++ text ++ "\"")) here

def pattern (token : Recogniser) (expected : String) : Parser String :=
  fun here => match token here.rest with
    | some n => .ok (String.ofList (here.rest.take n)) (here.advance n)
    | none => .fail (here.expected expected) here

def sequence : List (Parser T) → Parser (List T)
  | [] => pure []
  | p :: rest => p.bind fun value => (sequence rest).map (value :: ·)

def tryEach (earlier : Option Failure) : List (Parser T) → Parser T
  | [] => fun here => .fail (earlier.getD (here.expected "an alternative")) here
  | p :: rest => fun here => match p here with
    | .fail failure stop =>
        if stop.offset ≠ here.offset then .fail failure stop
        else
          let merged := match earlier with
            | some previous => previous.merge failure
            | none => failure
          tryEach (some merged) rest here
    | outcome => outcome

def choice (alternatives : List (Parser T)) : Parser T :=
  tryEach none alternatives

/-- Repeat up to the first failure that moves nothing. A success that moves nothing
is kept and ends the repetition. -/
def repeatUpTo (p : Parser T) : Nat → Parser (List T)
  | 0 => fun _ => .exhausted
  | limit + 1 => fun here => match p here with
    | .ok value there =>
        if there.offset = here.offset then .ok [value] there
        else (repeatUpTo p limit).map (value :: ·) there
    | .fail failure stop =>
        if stop.offset ≠ here.offset then .fail failure stop else .ok [] here
    | .exhausted => .exhausted

def many (p : Parser T) : Parser (List T) :=
  fun here => repeatUpTo p (here.rest.length + 1) here

def many1 (p : Parser T) : Parser (List T) :=
  p.bind fun value => (many p).map (value :: ·)

def optional (p : Parser T) : Parser (Option T) :=
  fun here => match p here with
    | .ok value there => .ok (some value) there
    | .fail failure stop =>
        if stop.offset ≠ here.offset then .fail failure stop else .ok none here
    | .exhausted => .exhausted

def eof : Parser Unit :=
  fun here => if here.atEnd then .ok () here else .fail (here.expected "end of input") here

def unroll (body : Parser T → Parser T) : Nat → Parser T
  | 0 => fun _ => .exhausted
  | depth + 1 => fun here => body (unroll body depth) here

/-- A parser that may call itself after reading something, hence no deeper than there
are characters left. -/
def fix (body : Parser T → Parser T) : Parser T :=
  fun here => unroll body (here.rest.length + 1) here

def parse (p : Parser T) (text : String) : Except Failure T :=
  let start := Cursor.ofText text.toList
  match p start with
  | .ok value _ => .ok value
  | .fail failure _ => .error failure
  | .exhausted => .error (start.expected "an end to the recursion")

end Parser

end ParticlePatterns.Parsing
