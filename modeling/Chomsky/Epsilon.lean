import Chomsky.Nullable

/-!
# Removing Empty Productions

A body with nullable variables in it derives the same words when some of their
occurrences are left out, as long as one symbol stays. So each body is replaced
by all its variants that keep or drop each nullable occurrence, and the bodies
`[ε]` go. A marker `ε` inside a longer body stands for nothing and is dropped
from every variant.

The variants are listed with *keep* before *drop* and the first occurrence most
significant. That order reaches the output, since the fresh names of the later
stages follow it.

A body with `k` nullable occurrences has `2 ^ k` variants, so a limit on `k`
guards the expansion. The first body that exceeds it, in the order of the rules,
is the one reported.

What is lost is the empty word itself. The start symbol can have its `[ε]` back
when it is nullable and occurs on no right-hand side, where the empty production
can do no harm.

## Main definitions

* `Body.variants`: Keep or drop each nullable occurrence.
* `TooComplex`: A body with more nullable occurrences than allowed.
* `Grammar.excess`: The first such body.
* `Grammar.eliminateEpsilon`: The stage.
-/

namespace Chomsky

namespace Body

/-- All variants of a body that keep or drop each occurrence of a nullable
    variable, keep before drop. Markers `ε` are dropped from all of them. -/
def variants (nullable : List Variable) : Body → List Body
  | [] => [[]]
  | s :: rest =>
      let tails := variants nullable rest
      if s.isEpsilon then tails
      else if s.isNullable nullable then tails.map (s :: ·) ++ tails
      else tails.map (s :: ·)

/-- The number of occurrences of nullable variables in a body. -/
def nullableCount (nullable : List Variable) (body : Body) : Nat :=
  body.countP (Symbol.isNullable nullable)

end Body

/-- A body with more nullable occurrences than the limit allows. -/
structure TooComplex where
  /-- The variable whose alternative it is. -/
  lhs : Variable
  count : Nat
  limit : Nat
  deriving DecidableEq, Repr

/-- The message that reports a body over the limit. -/
def TooComplex.message (e : TooComplex) : String :=
  "Grammar too complex: a body of '" ++ e.lhs.name ++ "' contains " ++ toString e.count ++
    " nullable variables (limit is " ++ toString e.limit ++ ")"

namespace Grammar

/-- The bodies that replace the alternatives of a variable: the variants of all
    alternatives but `[ε]`, without the zero-length one, each once. -/
def expand (nullable : List Variable) (bodies : List Body) : List Body :=
  ((bodies.filter (!·.isEpsilon)).flatMap fun body =>
    (body.variants nullable).filter (!·.isEmpty)).eraseDups

/-- The first body of a rule with more than `limit` nullable occurrences. -/
def ruleExcess (nullable : List Variable) (limit : Nat) (r : Rule) : Option TooComplex :=
  (r.2.find? fun body => decide (limit < body.nullableCount nullable)).map fun body =>
    ⟨r.1, body.nullableCount nullable, limit⟩

/-- The first body of the grammar with more than `limit` nullable
    occurrences. -/
def excess (g : Grammar) (limit : Nat) : Option TooComplex :=
  g.rules.findSome? (ruleExcess g.nullable limit)

/-- Every alternative replaced by its variants, whatever their number. -/
def withoutEpsilon (g : Grammar) : Grammar :=
  let nullable := g.nullable
  g.mapAlternatives fun _ bodies => expand nullable bodies

/-- Whether the start symbol gets its empty production back: it derives the
    empty word and occurs on no right-hand side of what `withoutEpsilon`
    leaves. -/
def retainsEpsilon (g : Grammar) (start : Variable) (keep : Bool) : Bool :=
  keep && g.nullable.contains start && !g.withoutEpsilon.occursInBody start

/-- Remove all empty productions. With `keep`, the start symbol retains its own
    where possible. Fails on a body with more than `limit` nullable
    occurrences. -/
def eliminateEpsilon (g : Grammar) (start : Variable) (keep : Bool) (limit : Nat) :
    Except TooComplex Grammar :=
  match g.excess limit with
  | some e => .error e
  | none =>
      .ok (if g.retainsEpsilon start keep then g.withoutEpsilon.pushUnique start [.epsilon]
        else g.withoutEpsilon)

end Grammar

end Chomsky
