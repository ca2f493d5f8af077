import Chomsky.Symbol

/-!
# Grammars

A context-free grammar maps each of its variables to an ordered list of
alternatives. The order in which variables were first mentioned is part of the
value: printing a grammar and numbering fresh variables follow it.

The map is a list of pairs whose first components are distinct, and the type
says so. Every change to it goes through `updateRules`, which either changes
the alternatives of a variable in place or adds the variable at the end. That
single shape is what makes the operations on different variables independent of
each other.

## Main definitions

* `Grammar`: Variables with their alternatives, each variable once.
* `Grammar.alternatives`, `Grammar.contains`, `Grammar.defined`: The views.
* `Grammar.define`, `Grammar.declare`, `Grammar.pushUnique`: The operations.
* `Grammar.ofRules`: Define a list of rules one after the other.
* `Grammar.mapAlternatives`: Change the alternatives of every variable.
* `Grammar.Equiv`: The same alternatives everywhere, in any order of variables.
* `Grammar.inNormalForm`: Chomsky normal form for a given start symbol.

## Theorems

* `map_fst_updateRules`: A change keeps the variables, or adds one at the end.
* `nodup_updateRules`: A change keeps the variables distinct.
-/

namespace Chomsky

/-- A variable with its alternatives. -/
abbrev Rule := Variable × List Body

/-- Change the alternatives of `v` by `f`. A variable that is not listed starts
    out with none and is added at the end. -/
def updateRules (v : Variable) (f : List Body → List Body) : List Rule → List Rule
  | [] => [(v, f [])]
  | r :: rest => if r.1 = v then (v, f r.2) :: rest else r :: updateRules v f rest

theorem map_fst_updateRules (v : Variable) (f : List Body → List Body) (rules : List Rule) :
    (updateRules v f rules).map Prod.fst =
      if v ∈ rules.map Prod.fst then rules.map Prod.fst else rules.map Prod.fst ++ [v] := by
  induction rules with
  | nil => rfl
  | cons r rest ih =>
      by_cases h : r.1 = v
      · simp [updateRules, h]
      · have h' : v ≠ r.1 := fun e => h e.symm
        simp only [updateRules, h, if_false, List.map_cons, ih, List.mem_cons, h', false_or]
        split <;> rfl

theorem nodup_updateRules (v : Variable) (f : List Body → List Body) (rules : List Rule)
    (h : (rules.map Prod.fst).Nodup) : ((updateRules v f rules).map Prod.fst).Nodup := by
  rw [map_fst_updateRules]
  split
  · exact h
  · next hv =>
      rw [List.nodup_append]
      refine ⟨h, by simp, fun a ha b hb => ?_⟩
      rw [List.mem_singleton] at hb
      exact fun e => hv (hb ▸ e ▸ ha)

/-- A context-free grammar: every variable with its ordered alternatives, in the
    order in which the variables were first mentioned. -/
structure Grammar where
  rules : List Rule
  /-- No variable is listed twice. -/
  distinct : (rules.map Prod.fst).Nodup
  deriving DecidableEq, Repr

namespace Grammar

/-- The grammar without variables. -/
def empty : Grammar := ⟨[], List.nodup_nil⟩

/-- All variables in the order of their first mention. -/
def defined (g : Grammar) : List Variable := g.rules.map Prod.fst

/-- The alternatives of a variable. One that is not in the grammar has none. -/
def alternatives (g : Grammar) (v : Variable) : List Body := (g.rules.lookup v).getD []

/-- All bodies, rule after rule. -/
def bodies (g : Grammar) : List Body := g.rules.flatMap Prod.snd

/-- The number of variables. -/
def size (g : Grammar) : Nat := g.rules.length

/-- The number of productions over all variables. -/
def productionCount (g : Grammar) : Nat := g.rules.foldl (fun n r => n + r.2.length) 0

/-- Whether a variable is in the grammar, if only without alternatives. -/
def contains (g : Grammar) (v : Variable) : Bool := g.defined.contains v

/-- Whether a variable occurs on any right-hand side. -/
def occursInBody (g : Grammar) (v : Variable) : Bool :=
  g.bodies.any fun body => body.contains (.nonterminal v)

/-- Change the alternatives of `v` by `f`, adding `v` at the end if need be. -/
def update (g : Grammar) (v : Variable) (f : List Body → List Body) : Grammar :=
  ⟨updateRules v f g.rules, nodup_updateRules v f g.rules g.distinct⟩

/-- Set the alternatives of a variable. One that had alternatives before loses
    them and keeps its place. -/
def define (g : Grammar) (v : Variable) (bodies : List Body) : Grammar :=
  g.update v fun _ => bodies

/-- Make sure that a variable is in the grammar, if only without alternatives. -/
def declare (g : Grammar) (v : Variable) : Grammar := g.update v id

/-- A list of bodies with one more at its end, unless it is there already. -/
def pushBody (body : Body) (bodies : List Body) : List Body :=
  if body ∈ bodies then bodies else bodies ++ [body]

/-- Append a body to the alternatives of a variable unless it is one of them. -/
def pushUnique (g : Grammar) (v : Variable) (body : Body) : Grammar :=
  g.update v (pushBody body)

/-- Whether `pushUnique` would add the body. -/
def lacks (g : Grammar) (v : Variable) (body : Body) : Bool :=
  !(g.alternatives v).contains body

/-- Define the rules of a list one after the other, on top of a grammar. -/
def defineAll (g : Grammar) (rules : List Rule) : Grammar :=
  rules.foldl (fun acc r => acc.define r.1 r.2) g

/-- The grammar of a list of rules. Of two rules for one variable the later one
    counts, at the place of the earlier one. -/
def ofRules (rules : List Rule) : Grammar := empty.defineAll rules

/-- Change the alternatives of every variable by `f`. -/
def mapAlternatives (g : Grammar) (f : Variable → List Body → List Body) : Grammar where
  rules := g.rules.map fun r => (r.1, f r.1 r.2)
  distinct := by
    rw [List.map_map]
    exact g.distinct

/-- Two grammars have the same variables with the same alternatives. The order
    of the variables does not count, while that of the alternatives does. -/
def Equiv (g h : Grammar) : Prop := ∀ v, g.rules.lookup v = h.rules.lookup v

/-- Decide `Equiv` by comparing the entries of the variables that occur. -/
def equiv (g h : Grammar) : Bool :=
  (g.defined ++ h.defined).all fun v => g.rules.lookup v == h.rules.lookup v

/-- Whether a body of `v` has the shape of Chomsky normal form: a single
    terminal or two variables. The marker `ε` is a terminal of its own kind,
    which only the start symbol may have, and only while it is `hidden` from
    every right-hand side. -/
def normalBody (start : Variable) (hidden : Bool) (v : Variable) : Body → Bool
  | [.terminal t] => !t.isEpsilon || (v == start && hidden)
  | [.nonterminal _, .nonterminal _] => true
  | _ => false

/-- Chomsky normal form with the given start symbol. -/
def inNormalForm (g : Grammar) (start : Variable) : Bool :=
  let hidden := !g.occursInBody start
  g.rules.all fun r => r.2.all (normalBody start hidden r.1)

end Grammar

end Chomsky
