import Chomsky.UnitPairs

/-!
# Removing Unit Productions

A variable that reaches another through unit productions derives whatever the
other one does. So its unit productions can go once it has the other's remaining
bodies. A variable keeps its own bodies first, as they are, and then inherits
along its unit pairs, nearest first, each body that it does not have yet.
Variables left without any alternative stay in the grammar.

## Main definitions

* `Grammar.inherited`: The bodies a variable inherits, with repetitions.
* `Grammar.eliminateUnits`: The stage.
-/

namespace Chomsky

namespace Grammar

/-- The bodies of a list that are not a single variable. -/
def nonUnits (bodies : List Body) : List Body := bodies.filter (!·.isUnit)

/-- What a variable inherits along the given unit pairs, with repetitions. -/
def inherited (g : Grammar) (pairs : List (Variable × Variable)) (v : Variable) : List Body :=
  (pairs.filter (·.1 == v)).flatMap fun p => nonUnits (g.alternatives p.2)

/-- Remove all unit productions. -/
def eliminateUnits (g : Grammar) : Grammar :=
  let pairs := g.unitPairs
  g.mapAlternatives fun v bodies => pushNew (nonUnits bodies) (g.inherited pairs v)

end Grammar

end Chomsky
