import ParticlePatterns.Pattern.Error
import ParticlePatterns.Pattern.Variation

/-!
# Operators

The names that need arguments, with the number of arguments they take.
-/

set_option autoImplicit false

namespace ParticlePatterns

inductive Modifier
  | speed
  | speedAdd
  | speedMultiply
  | opacity
  | opacityAdd
  | opacityMultiply
  | hue
  | hueAdd
deriving DecidableEq, Repr

namespace Modifier

def all : List Modifier :=
  [.speed, .speedAdd, .speedMultiply, .opacity, .opacityAdd, .opacityMultiply, .hue, .hueAdd]

def name : Modifier → String
  | speed => "speed"
  | speedAdd => "speed+"
  | speedMultiply => "speed*"
  | opacity => "opacity"
  | opacityAdd => "opacity+"
  | opacityMultiply => "opacity*"
  | hue => "hue"
  | hueAdd => "hue+"

def property : Modifier → Property
  | speed => .speed
  | speedAdd => .speed
  | speedMultiply => .speed
  | opacity => .opacity
  | opacityAdd => .opacity
  | opacityMultiply => .opacity
  | hue => .hue
  | hueAdd => .hue

def modification : Modifier → Modification
  | speed => .set
  | speedAdd => .add
  | speedMultiply => .multiply
  | opacity => .set
  | opacityAdd => .add
  | opacityMultiply => .multiply
  | hue => .set
  | hueAdd => .add

end Modifier

inductive Operator
  | modify (modifier : Modifier)
  | model
  | close
  | translate
  | rotate
  | loop
  | repetition
  | emit
  | block
  | choice (mode : Mode)
  | range (mode : Mode)
deriving DecidableEq, Repr

namespace Operator

def all : List Operator :=
  Modifier.all.map .modify ++
    [.model, .close, .translate, .rotate, .loop, .repetition, .emit, .block, .choice .each,
      .choice .random, .range .each, .range .random]

def name : Operator → String
  | modify modifier => modifier.name
  | model => "model"
  | close => "close"
  | translate => "translate"
  | rotate => "rotate"
  | loop => "loop"
  | repetition => "repeat"
  | emit => "emit"
  | block => Term.blockHead
  | choice mode => mode.bracket.choice
  | range mode => mode.bracket.range

def arity : Operator → Arity
  | modify _ => .exactly 1
  | model => .exactly 1
  | close => .exactly 0
  | translate => .exactly 3
  | rotate => .exactly 3
  | loop => .atLeast 1
  | repetition => .atLeast 2
  | emit => .atLeast 4
  | block => .atLeast 1
  | choice _ => .atLeast 1
  | range _ => .exactly 2

def arityError {α : Type} (op : Operator) (got : Nat) : CompileError α :=
  .arity op.name op.arity got

end Operator

end ParticlePatterns
