import Chomsky.Symbol

/-!
# Warnings

Findings that a reader of the grammar should know about and that do not stand in
the way of a result.

## Main definitions

* `Warning`: The findings.
* `Warning.message`: The sentence that reports one.
-/

namespace Chomsky

/-- A finding that does not keep a grammar from being read or converted. -/
inductive Warning where
  /-- An alternative has neither symbols nor the marker `ε`. -/
  | emptyAlternative (lhs : Variable) (index : Nat)
  /-- A marker `ε` was dropped from an alternative that holds more than it. -/
  | epsilonDropped (lhs : Variable) (index : Nat)
  /-- A line has nothing before its arrow. -/
  | missingLeftHandSide (line : Nat)
  | unknownStartSymbol (start : Variable)
  deriving DecidableEq, Repr

/-- The sentence that reports a warning. Alternatives are counted from zero and
    lines from one. -/
def Warning.message : Warning → String
  | emptyAlternative lhs index =>
      "Alternative #" ++ toString index ++ " of '" ++ lhs.name ++
        "' is empty; write ε for an empty production"
  | epsilonDropped lhs index =>
      "Alternative #" ++ toString index ++ " of '" ++ lhs.name ++
        "' mixes ε with other symbols; the ε was dropped"
  | missingLeftHandSide line =>
      "Line " ++ toString line ++ " has no left-hand side and was skipped"
  | unknownStartSymbol start => "The start symbol '" ++ start.name ++ "' is never defined"

end Chomsky
