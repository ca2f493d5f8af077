import Chomsky.FreshName

/-!
# Isolating Terminals

A body of two symbols may hold variables only. So each terminal in such a body
gives way to a variable whose single body is that terminal. Every terminal has
one such variable, no matter how often and where it occurs, and bodies of any
other length are left alone.

The terminals are collected first, in the order of their first occurrence, and
paired with fresh names. Replacing a terminal is then a look-up in that table.

## Main definitions

* `Grammar.pairedTerminals`: The terminals in two-symbol bodies, each once.
* `Grammar.isolation`: The table of terminals and their variables.
* `Grammar.isolateTerminals`: The stage.

## Theorems

* `map_fst_isolation`, `map_snd_isolation`: The two columns of the table.
-/

namespace Chomsky

/-- The variable of a terminal according to a table. Other symbols stay. -/
def Symbol.isolate (table : List (Terminal × Variable)) : Symbol → Symbol
  | .terminal t =>
      match table.lookup t with
      | some v => .nonterminal v
      | none => .terminal t
  | .nonterminal v => .nonterminal v

/-- A two-symbol body with the variables of a table for its terminals. -/
def Body.isolate (table : List (Terminal × Variable)) (body : Body) : Body :=
  if body.length = 2 then body.map (Symbol.isolate table) else body

namespace Grammar

/-- The terminals in two-symbol bodies in the order of their first occurrence,
    each once. -/
def pairedTerminals (g : Grammar) : List Terminal :=
  ((g.bodies.filter fun body => body.length = 2).flatten.filterMap Symbol.asTerminal).eraseDups

/-- The names of the variables of isolated terminals: `T` and a number. -/
def terminalNames (g : Grammar) : List Variable :=
  g.freshVariables 'T' g.pairedTerminals.length

/-- The terminals in two-symbol bodies with their variables. -/
def isolation (g : Grammar) : List (Terminal × Variable) :=
  g.pairedTerminals.zip g.terminalNames

@[simp] theorem map_fst_isolation (g : Grammar) : g.isolation.map Prod.fst = g.pairedTerminals :=
  List.map_fst_zip (Nat.le_of_eq (g.length_freshVariables 'T' g.pairedTerminals.length).symm)

@[simp] theorem map_snd_isolation (g : Grammar) : g.isolation.map Prod.snd = g.terminalNames :=
  List.map_snd_zip (Nat.le_of_eq (g.length_freshVariables 'T' g.pairedTerminals.length))

/-- Replace every terminal in a two-symbol body by its variable. These variables
    come after all others. -/
def isolateTerminals (g : Grammar) : Grammar where
  rules :=
    let table := g.isolation
    (g.rules.map fun r => (r.1, r.2.map (Body.isolate table))) ++
      table.map fun p => (p.2, [[.terminal p.1]])
  distinct := by
    have h := g.nodup_defined_append_freshVariables 'T' g.pairedTerminals.length
    rw [List.map_append, List.map_map, List.map_map]
    exact g.map_snd_isolation.symm ▸ h

end Grammar

end Chomsky
