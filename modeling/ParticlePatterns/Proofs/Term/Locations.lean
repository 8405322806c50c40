import ParticlePatterns.Proofs.Number.Faithful
import ParticlePatterns.Proofs.Parsing.Positions
import ParticlePatterns.Term.Grammar

/-!
# Where parsers stand and fail

Every rule of the grammar is put together from the combinators; the rule for numbers is the only
one that looks at a value again, and reports where the literal started. So cursors and failures
are exact wherever a rule is run.
-/

set_option autoImplicit false

namespace ParticlePatterns

namespace Grammar

open Parsing (Cursor Failure Outcome)
open Parsing.Parser

variable {ν : Type}

theorem number_eq_checked [Numeral ν] : (number : Parsing.Parser (Term ν)) =
    (pattern Token.number "number").checked
      (fun text => (Numeral.read? text.toList).map .number) "finite number" := by
  funext here
  simp only [number, checked]
  cases pattern Token.number "number" here with
  | ok text there =>
    dsimp only
    cases (Numeral.read? text.toList : Option ν) <;> rfl
  | fail failure stop => rfl
  | exhausted => rfl

section Rules

variable {term : Parsing.Parser (Term ν)} (h : Combined term)

include h

end Rules

variable [Numeral ν]

end Grammar

open Parsing (Cursor Failure)
open Parsing.Parser (Combined choice choiceBy)

end ParticlePatterns
