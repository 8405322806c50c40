import ParticlePatterns.Number.Literal
import ParticlePatterns.Number.Numeral
import ParticlePatterns.Number.Scalar

/-!
# Options of the command line

Every option is given at most once, by its long name or its letter. Its value is the
next argument, or stands in the same one. Where a value is needed, an argument that
looks like an option is none.
-/

set_option autoImplicit false

namespace ParticlePatterns.Player

inductive Key
  | pattern
  | source
  | ticks
  | dt
  | seed
  | config
  | print
  | names
deriving DecidableEq, Repr

structure Options (α : Type) where
  pattern : Option String
  /-- The pattern itself, in place of a path. -/
  source : Option String
  ticks : Nat
  dt : α
  seed : Option UInt64
  config : Option String
  print : Bool
  names : Bool
deriving Repr

namespace Key

def all : List Key := [.pattern, .source, .ticks, .dt, .seed, .config, .print, .names]

def ofName? : String → Option Key
  | "source" => some source
  | "ticks" => some ticks
  | "dt" => some dt
  | "seed" => some seed
  | "config" => some config
  | "print" => some print
  | "names" => some names
  | _ => none

def ofLetter? : Char → Option Key
  | 's' => some source
  | 't' => some ticks
  | 'c' => some config
  | _ => none

def takesValue : Key → Bool
  | print => false
  | names => false
  | _ => true

end Key

inductive Word
  | setting (key : Key) (value : String)
  /-- An option whose value is the next argument. -/
  | awaiting (key : Key)
  /-- What comes after it are no options. -/
  | escape
  | invalid
deriving DecidableEq, Repr

namespace Word

def ofLong (text : List Char) : Word :=
  let name := String.ofList (text.takeWhile (· != '='))
  match Key.ofName? name, text.dropWhile (· != '=') with
  | some key, [] => if key.takesValue then .awaiting key else .setting key ""
  | some key, _ :: value =>
      if key.takesValue then .setting key (String.ofList value) else .invalid
  | none, _ => .invalid

def ofShort (letter : Char) (rest : List Char) : Word :=
  match Key.ofLetter? letter, rest with
  | some key, [] => .awaiting key
  | some key, '=' :: value => .setting key (String.ofList value)
  | some key, value => .setting key (String.ofList value)
  | none, _ => .invalid

def ofArgument (arg : String) : Word :=
  match arg.toList with
  | ['-', '-'] => .escape
  | '-' :: '-' :: rest => ofLong rest
  | '-' :: letter :: rest => ofShort letter rest
  | _ => .setting .pattern arg

end Word

def looksLikeOption (arg : String) : Bool :=
  match arg.toList with
  | '-' :: _ :: _ => true
  | _ => false

def settings? : Option Key → List String → Option (List (Key × String))
  | none, [] => some []
  | some _, [] => none
  | some key, arg :: rest =>
      if looksLikeOption arg then none else (settings? none rest).map ((key, arg) :: ·)
  | none, arg :: rest => match Word.ofArgument arg with
    | .setting key value => (settings? none rest).map ((key, value) :: ·)
    | .awaiting key => settings? (some key) rest
    | .escape => some (rest.map fun path => (.pattern, path))
    | .invalid => none

def digits? (text : List Char) : Option Nat :=
  if text.isEmpty || !text.all Char.isDigit then none
  else some (Literal.natOfDigits text)

def natBelow? (limit : Nat) (text : String) : Option Nat :=
  let found := match text.toList with
    | '+' :: rest => digits? rest
    | rest => digits? rest
  found.filter fun n => decide (n < limit)

def countBelow? (limit : Nat) (text : String) : Option Nat :=
  match text.toList with
  | '-' :: rest => (digits? rest).filter fun n => decide (n = 0)
  | _ => natBelow? limit text

section Numbers

variable {α : Type} [Scalar α] [Numeral α]

def magnitude? (text : List Char) : Option α :=
  let lower := String.ofList (text.map Char.toLower)
  if lower = "inf" ∨ lower = "infinity" then some Scalar.infinity
  else if lower = "nan" then some (Scalar.infinity - Scalar.infinity)
  else if Literal.isUnsigned text then some ((Numeral.read? text).getD Scalar.infinity)
  else none

def number? (text : String) : Option α :=
  match text.toList with
  | '+' :: rest => magnitude? rest
  | '-' :: rest => (magnitude? rest).map (- ·)
  | rest => magnitude? rest

end Numbers

def given (settings : List (Key × String)) (key : Key) : Option String :=
  (settings.find? fun s => s.1 = key).map (·.2)

def path? (text : String) : Option String :=
  if text.isEmpty then none else some text

def valueOr {T : Type} (otherwise : T) (read : String → Option T) (text : Option String) :
    Option T :=
  match text with
  | none => some otherwise
  | some text => read text

namespace Options

variable {α : Type} [Scalar α] [Numeral α]

def Consistent (settings : List (Key × String)) : Prop :=
  (∀ key ∈ Key.all, settings.countP (fun s => s.1 = key) ≤ 1) ∧
    ¬((given settings .pattern).isSome ∧ (given settings .source).isSome)

instance (settings : List (Key × String)) : Decidable (Consistent settings) :=
  inferInstanceAs (Decidable (_ ∧ _))

def ofArguments? (args : List String) : Option (Options α) := do
  let settings ← settings? none args
  if Consistent settings then
    let pattern ← valueOr none (fun text => (path? text).map some) (given settings .pattern)
    let ticks ← valueOr 60 (countBelow? UInt32.size) (given settings .ticks)
    let dt ← valueOr 1 number? (given settings .dt)
    let seed ← valueOr none (fun text => (natBelow? UInt64.size text).map (some ·.toUInt64))
      (given settings .seed)
    let config ← valueOr none (fun text => (path? text).map some) (given settings .config)
    pure
      { pattern, ticks, dt, seed, config
        source := given settings .source
        print := (given settings .print).isSome
        names := (given settings .names).isSome }
  else none

end Options

end ParticlePatterns.Player
