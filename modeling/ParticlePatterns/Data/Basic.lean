/-!
# Plain data

The values that programs and settings are stored as. Whole numbers are kept
apart from the others, which a reader may refuse where only whole ones make
sense.
-/

set_option autoImplicit false

namespace ParticlePatterns

inductive Data (ν : Type) : Type
  | null
  | boolean (value : Bool)
  | integer (value : Int)
  | number (value : ν)
  | text (value : String)
  | array (items : List (Data ν))
  | record (fields : List (String × Data ν))
deriving Repr, Inhabited

end ParticlePatterns
