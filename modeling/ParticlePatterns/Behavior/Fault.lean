import ParticlePatterns.Number.Numeral

/-!
# Faults

The ways to break the rules that fields are set up and behaviors are driven by. A run
that meets one ends there.
-/

set_option autoImplicit false

namespace ParticlePatterns

inductive Fault (α : Type)
  | backwards (start stop : α)
  | lateStart (start : α)
  | gap (start lastStop : α)
  | easingAfterStart
  | lifespanAfterStart
  | negativeLifespan (lifespan : α)
  /-- More to be held than there can be room for. -/
  | noRoom
  /-- A product, or a sum, that 64 bits cannot hold. -/
  | productOverflow
  | sumOverflow
  | noAlternative
  /-- A tick that does not come to its end. -/
  | unfinished
deriving Repr

namespace Fault

variable {α : Type} [Numeral α]

def shown (x : α) : String :=
  String.ofList (Numeral.write x)

def message : Fault α → String
  | backwards start stop => "window [" ++ shown start ++ ", " ++ shown stop ++ ") runs backwards"
  | lateStart start => "first window starts at " ++ shown start
  | gap start lastStop =>
      "window starts at " ++ shown start ++ " after ending at " ++ shown lastStop
  | easingAfterStart => "easing changed after the first update"
  | lifespanAfterStart => "lifespan changed after the first update"
  | negativeLifespan lifespan => "negative lifespan " ++ shown lifespan
  | noRoom => "capacity overflow"
  | productOverflow => "attempt to multiply with overflow"
  | sumOverflow => "attempt to add with overflow"
  | noAlternative => "a choice without alternatives"
  | unfinished => "a tick without an end"

end Fault

end ParticlePatterns
