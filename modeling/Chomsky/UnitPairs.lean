import Chomsky.Grammar.Basic

/-!
# Unit Pairs

The pairs `(A, B)` such that `A` reaches `B` through one or more unit
productions.

The pairs are found by a worklist. The direct pairs come first, in the order of
the productions. A cursor then walks over the list: at `(A, B)` it adds `(A, C)`
for every unit production from `B` to `C`, unless that pair is listed already.
The list grows at its end while the cursor moves, so pairs are listed nearest
first, and the search is over when the cursor has passed the last of them.

A pair joins a variable of the grammar with the target of a unit production, and
no pair is listed twice. The product of the two numbers bounds the length of the
list and with it the number of steps.

## Main definitions

* `Grammar.unitTargets`: The targets of the unit productions of a variable.
* `Worklist`: The listed pairs and the cursor.
* `Worklist.step`: Process the pair under the cursor.
* `Grammar.unitPairs`: All pairs, nearest first.
-/

namespace Chomsky

/-- A list with more elements at its end, each unless it is there already. -/
def pushNew {α : Type} [BEq α] (xs : List α) : List α → List α
  | [] => xs
  | y :: ys => pushNew (if xs.contains y then xs else xs ++ [y]) ys

namespace Grammar

/-- The targets of the unit productions of a variable, in order. -/
def unitTargets (g : Grammar) (v : Variable) : List Variable :=
  (g.alternatives v).filterMap Body.unitTarget

/-- The pairs of all unit productions, in order, each once. -/
def directPairs (g : Grammar) : List (Variable × Variable) :=
  (g.rules.flatMap fun r => (r.2.filterMap Body.unitTarget).map (r.1, ·)).eraseDups

/-- The variables that are the target of a unit production, each once. -/
def unitBodies (g : Grammar) : List Variable :=
  (g.bodies.filterMap Body.unitTarget).eraseDups

end Grammar

/-- A list of pairs of which those before the cursor are processed. -/
structure Worklist where
  /-- The pairs found so far. -/
  pairs : List (Variable × Variable)
  cursor : Nat

namespace Worklist

/-- Process the pair under the cursor. There is none when all are processed. -/
def step (g : Grammar) (w : Worklist) : Option Worklist :=
  w.pairs[w.cursor]?.map fun p =>
    ⟨pushNew w.pairs ((g.unitTargets p.2).map (p.1, ·)), w.cursor + 1⟩

/-- Process pairs until all are processed, `steps` of them at most. -/
def run (g : Grammar) : (steps : Nat) → Worklist → Worklist
  | 0, w => w
  | n + 1, w =>
      match w.step g with
      | none => w
      | some next => run g n next

end Worklist

namespace Grammar

/-- As many pairs as there can be: a variable of the grammar with the target of
    a unit production. -/
def unitPairBound (g : Grammar) : Nat := g.size * g.unitBodies.length

/-- All pairs `(A, B)` such that `A` reaches `B` through one or more unit
    productions, nearest first. -/
def unitPairs (g : Grammar) : List (Variable × Variable) :=
  (Worklist.run g g.unitPairBound ⟨g.directPairs, 0⟩).pairs

end Grammar

end Chomsky
