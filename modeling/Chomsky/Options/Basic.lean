import Chomsky.Source.Basic

/-!
# Options

What can be chosen about a conversion.

## Main definitions

* `Options`: The choices, with their defaults.
-/

namespace Chomsky

/-- What can be chosen about a conversion. -/
structure Options where
  /-- Keep the empty production of the start symbol where possible. -/
  keepStartEpsilon : Bool := false
  startSymbol : String := "S"
  /-- The most nullable occurrences that a body may have. -/
  maxNullable : Nat := 16
  format : Format := .text
  deriving DecidableEq, Repr

/-- The start symbol. -/
def Options.start (o : Options) : Variable := ⟨o.startSymbol⟩

end Chomsky
