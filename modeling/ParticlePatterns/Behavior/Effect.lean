import ParticlePatterns.Behavior.Timing
import ParticlePatterns.Sprite

/-!
# Effects

What a behavior without parts does to its sprite in one window. Effects are
differences of progress, so that a lifespan cut into many windows has the effect
of one window over all of it.
-/

set_option autoImplicit false

namespace ParticlePatterns

inductive Action
  | become (model : Model)
  | close
deriving DecidableEq, Repr

inductive Effect (α : Type)
  | pause
  /-- `initial` is the value of the property before the first window. -/
  | modify (property : Property) (how : Modification) (operand initial : α)
  | switch (action : Action) (fired : Bool)
  | translate (offset : Vec3 α)
  | rotate (degrees : Vec3 α)
deriving Repr

namespace Action

def apply {α : Type} (a : Action) (s : Sprite α) : Sprite α :=
  match a with
  | become model => { s with model }
  | close => { s with closed := true }

end Action

namespace Effect

variable {α : Type} [Scalar α]

def apply (t : Timing α) (first : Bool) (w : Window α) (e : Effect α) (s : Sprite α) :
    Effect α × Sprite α :=
  match e with
  | pause => (pause, s)
  | modify property .set operand initial =>
      let initial := if first then s.get property else initial
      (modify property .set operand initial,
        s.set property (Scalar.lerp initial operand (t.progress w.stop)))
  | modify property .add operand initial =>
      (modify property .add operand initial, s.modify property .add (operand * t.delta w))
  | modify property .multiply operand initial =>
      (modify property .multiply operand initial,
        s.modify property .multiply (Scalar.pow operand (t.delta w)))
  | switch action fired =>
      if fired = false ∧ 1 ≤ t.progress w.stop then (switch action true, action.apply s)
      else (switch action fired, s)
  | translate offset => (translate offset, s.translate (offset.scale (t.delta w)))
  | rotate degrees => (rotate degrees, s.rotate (degrees.scale (t.delta w)))

end Effect

end ParticlePatterns
