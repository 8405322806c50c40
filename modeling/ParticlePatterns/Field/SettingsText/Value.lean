import ParticlePatterns.Field.SettingsText.Range
import ParticlePatterns.Parsing.Combinator
import ParticlePatterns.Parsing.Filler

/-!
# Values in settings

Any value can be passed over, as long as it is nested no deeper than a limit. A parser
for values gives their depth: what holds other values takes one level, and so does each of
the values in it. A value that may be there or not takes one level when it is.
-/

set_option autoImplicit false

namespace ParticlePatterns.SettingsText

open Parsing
open Parsing.Parser (string pattern choice many optional)

def isBlank (c : Char) : Bool :=
  [0x9, 0xa, 0xb, 0xc, 0xd, 0x20, 0x85, 0x200e, 0x200f, 0x2028, 0x2029].contains c.toNat

def filler : Filler :=
  ⟨isBlank, nestedCommentEnd 0⟩

def gap : Parser String :=
  pattern filler.recogniser "blanks"

def token (r : Recogniser) (expected : String) : Parser String :=
  (pattern r expected).skip gap

def mark (text : String) : Parser String :=
  (string text).skip gap

def commasParted : List Bool → Bool
  | [] => true
  | [_] => true
  | comma :: rest => comma && commasParted rest

def parted {T : Type} (item : Parser T) : Parser (List T) :=
  let single := item.bind fun value =>
    (optional (mark ",")).map fun comma => (value, comma.isSome)
  (many single).bind fun items =>
    if commasParted (items.map (·.2)) then .pure (items.map (·.1)) else .fail "comma"

def fixedWord : Recogniser :=
  oneOf ["true", "false", "None"]

def scalar : Parser Nat :=
  (token (rangeToken.orElse (quotation.orElse (fixedWord.orElse (.literal ['(', ')']))))
    "value").map fun _ => 0

def bareName : Parser Nat :=
  (token (fun text => if (word "Some" text).isSome then none else nameToken text) "name").map
    fun _ => 0

def depthOver (depths : List Nat) : Nat :=
  match depths.max? with
  | some deepest => deepest + 2
  | none => 1

def entry (value : Parser Nat) : Parser Nat :=
  (value.skip (mark ":")).bind fun key => value.map (max key)

def field (value : Parser Nat) : Parser Nat :=
  ((token keyToken "name").skip (mark ":")).andThen value

def startsNamed (text : List Char) : Bool :=
  (nameToken text).any fun n =>
    let rest := text.drop n
    (rest.drop (filler.lengthFrom 0 rest)).head? = some ':'

def items (value : Parser Nat) : Parser (Bool × List Nat) := fun here =>
  let named := startsNamed here.rest
  (parted (if named then field value else value)).map (fun depths => (named, depths)) here

def group (value : Parser Nat) : Parser Nat :=
  (((mark "(").andThen (items value)).skip (mark ")")).map fun found => depthOver found.2

def listing (value : Parser Nat) : Parser Nat :=
  (((mark "[").andThen (parted value)).skip (mark "]")).map depthOver

def mapping (value : Parser Nat) : Parser Nat :=
  (((mark "\x7b").andThen (parted (entry value))).skip (mark "\x7d")).map depthOver

structure Allowance where
  /-- The value may follow without parentheses. -/
  bare : Bool
  /-- The parentheses may at the same time be those of a group. -/
  shared : Bool
deriving DecidableEq, Repr

/-- What stands in the parentheses around a value that is there. Where these may be those of
a group, it is a group unless there is one item without a name, or none at all. -/
def enclosed (allowed : Allowance) (value : Parser Nat) : Parser Nat :=
  if allowed.shared then
    (items value).map fun
      | (false, []) => 0
      | (false, [depth]) => depth
      | (_, depths) => depthOver depths
  else value.skip (optional (mark ","))

def present (allowed : Allowance) (value : Parser Nat) : Parser Nat :=
  ((token (word "Some") "Some").andThen
    (choice [((mark "(").andThen (enclosed allowed value)).skip (mark ")"),
      if allowed.bare then value else .fail "parenthesis"])).map (· + 1)

def outermost (allowed : Allowance) (value : Parser Nat) : Parser Nat :=
  choice [scalar, present allowed value,
    bareName.bind fun _ => (optional (group value)).map (·.getD 0),
    group value, listing value, mapping value]

/-- Any value of the given depth at most, with the blanks behind it. What is in a value is
less deep, so that the recursion need not go further than the limit. -/
def value (allowed : Allowance) (limit : Nat) : Parser Unit :=
  (Parser.unroll (outermost allowed) (limit + 1)).bind fun depth =>
    if depth ≤ limit then .pure () else .fail "an end to the nesting"

end ParticlePatterns.SettingsText
