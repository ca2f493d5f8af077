import Chomsky.Grammar.Basic

/-!
# Nullable Variables

The variables that derive the empty word.

A variable with the body `[ε]` is nullable outright, and one with a body made of
nullable variables and markers `ε` alone is nullable because of that body. The
set is built by saturation. It starts with the first kind and then scans the
rules again and again, in order, adding every variable that a body makes
nullable. A variable added early in a scan already counts for the rules behind
it, which is what fixes the order of the answer.

A scan that adds nothing ends the search. Every other scan adds a variable of
the grammar that was missing, so there is one scan more than there are
variables at most, and that number serves as the bound of the recursion.

## Main definitions

* `Symbol.vanishes`, `Body.vanishes`: Deriving nothing, given what is known.
* `Grammar.nullableRound`: One scan of the rules.
* `Grammar.nullable`: The nullable variables in the order they are found.
-/

namespace Chomsky

/-- Whether a symbol is one of the given variables. -/
def Symbol.isNullable (known : List Variable) : Symbol → Bool
  | .nonterminal v => known.contains v
  | .terminal _ => false

/-- Whether a symbol can stand for the empty word when the given variables
    can. -/
def Symbol.vanishes (known : List Variable) (s : Symbol) : Bool :=
  s.isEpsilon || s.isNullable known

/-- Whether a body can stand for the empty word when the given variables can.
    The zero-length body derives nothing and so cannot. -/
def Body.vanishes (known : List Variable) (body : Body) : Bool :=
  !body.isEmpty && body.all (Symbol.vanishes known)

namespace Grammar

/-- The variables with the body `[ε]`. -/
def nullableSeed (g : Grammar) : List Variable :=
  (g.rules.filter fun r => r.2.any Body.isEpsilon).map Prod.fst

/-- Add the variable of a rule if it is new and one of its bodies vanishes. -/
def noteNullable (known : List Variable) (r : Rule) : List Variable :=
  if known.contains r.1 then known
  else if r.2.any (Body.vanishes known) then known ++ [r.1]
  else known

/-- Scan all rules once, in order. -/
def nullableRound (g : Grammar) (known : List Variable) : List Variable :=
  g.rules.foldl noteNullable known

/-- Scan until a scan adds nothing, `rounds` times at most. -/
def saturate (g : Grammar) : (rounds : Nat) → List Variable → List Variable
  | 0, known => known
  | n + 1, known =>
      let next := g.nullableRound known
      if next.length = known.length then known else g.saturate n next

/-- The variables that derive the empty word, in the order they are found. -/
def nullable (g : Grammar) : List Variable := g.saturate (g.size + 1) g.nullableSeed

end Grammar

end Chomsky
