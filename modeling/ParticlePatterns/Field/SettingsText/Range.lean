import ParticlePatterns.Field.SettingsText.Quotation

/-!
# Ranges in settings

Two numbers with points between them are a range, either end of which may be left open.
An end that belongs to the range is marked, and has to be there.
-/

set_option autoImplicit false

namespace ParticlePatterns.SettingsText

open Parsing

def numberToken : Recogniser :=
  boundless.orElse (byteToken.orElse (wholeToken.longer decimalToken))

def rangeToken : Recogniser := fun text =>
  let first := (numberToken text).getD 0
  match text.drop first with
  | '.' :: '.' :: '=' :: rest => (numberToken rest).map (· + (first + 3))
  | '.' :: '.' :: rest => some ((numberToken rest).getD 0 + (first + 2))
  | _ => numberToken text

end ParticlePatterns.SettingsText
