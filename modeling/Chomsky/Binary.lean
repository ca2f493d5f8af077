import Chomsky.FreshName

/-!
# Breaking Up Long Bodies

A body of three or more symbols becomes a chain of two-symbol bodies that groups
to the left. From `A → X Y Z W` come `N1 → X Y`, `N2 → N1 Z` and `A → N2 W`:
each chain variable stands for a beginning of the body, one symbol longer than
the one before it.

A body of `n` symbols takes `n - 2` chain variables. How many the whole grammar
takes is therefore known beforehand, so their names are drawn as one list, and
the bodies take their shares of it in order. Short bodies take none. Put back
together, the shares are the list, which is why no chain variable is used twice
and none is in use elsewhere.

## Main definitions

* `Body.chainLength`: The number of chain variables a body takes.
* `Body.split`: A body as a two-symbol body and the links of its chain.
* `Grammar.chains`: All bodies split, with the names handed along.
* `Grammar.eliminateLong`: The stage.

## Theorems

* `map_fst_split`: The links of a body use up its share of the names.
* `map_fst_chains`: Splitting keeps the variables.
* `map_fst_links`: The links of all bodies use up all names.
-/

namespace Chomsky

/-- A chain variable with its only body. -/
abbrev Link := Variable × Body

/-- The number of chain variables that a body takes. -/
def Body.chainLength (body : Body) : Nat := body.length - 2

/-- The number of chain variables that the bodies of a list take. -/
def chainLengths : List Body → Nat
  | [] => 0
  | body :: rest => body.chainLength + chainLengths rest

theorem chainLengths_append (front back : List Body) :
    chainLengths (front ++ back) = chainLengths front + chainLengths back := by
  induction front with
  | nil => exact (Nat.zero_add _).symm
  | cons body rest ih => rw [List.cons_append, chainLengths, ih, chainLengths, Nat.add_assoc]

/-- The body for `first` followed by the given symbols: while more than one is
    left, a link takes up the next one. Each link uses one of the names. -/
def Body.chain (first : Symbol) : Body → List Variable → Body × List Link
  | x :: y :: rest, v :: names =>
      let (body, links) := Body.chain (.nonterminal v) (y :: rest) names
      (body, (v, [first, x]) :: links)
  | rest, _ => (first :: rest, [])

/-- A body as one of two symbols at most and the links of its chain. -/
def Body.split (names : List Variable) : Body → Body × List Link
  | [] => ([], [])
  | first :: rest => Body.chain first rest names

theorem map_fst_chain (first : Symbol) (rest : Body) (names : List Variable) :
    (Body.chain first rest names).2.map Prod.fst = names.take (rest.length - 1) := by
  induction rest generalizing first names with
  | nil => simp [Body.chain]
  | cons x rest ih =>
      cases rest with
      | nil => simp [Body.chain]
      | cons y rest =>
          cases names with
          | nil => simp [Body.chain]
          | cons v names => simpa [Body.chain] using ih (.nonterminal v) names

theorem map_fst_split (names : List Variable) (body : Body) :
    (body.split names).2.map Prod.fst = names.take body.chainLength := by
  cases body with
  | nil => simp [Body.split, Body.chainLength]
  | cons first rest => simpa [Body.split, Body.chainLength] using map_fst_chain first rest names

/-- Split the bodies of a list, each with the names that the earlier ones left
    over. -/
def splitBodies : List Variable → List Body → List (Body × List Link)
  | _, [] => []
  | names, body :: rest => body.split names :: splitBodies (names.drop body.chainLength) rest

theorem map_fst_splitBodies (names : List Variable) (bodies : List Body) :
    ((splitBodies names bodies).flatMap Prod.snd).map Prod.fst =
      names.take (chainLengths bodies) := by
  induction bodies generalizing names with
  | nil => simp [splitBodies, chainLengths]
  | cons body rest ih =>
      simp only [splitBodies, List.flatMap_cons, List.map_append, map_fst_split, ih, chainLengths,
        List.take_add]

/-- Split the bodies of all rules, each with the names that the earlier ones
    left over. -/
def splitRules : List Variable → List Rule → List (Variable × List (Body × List Link))
  | _, [] => []
  | names, r :: rest =>
      (r.1, splitBodies names r.2) :: splitRules (names.drop (chainLengths r.2)) rest

theorem map_fst_splitRules (names : List Variable) (rules : List Rule) :
    (splitRules names rules).map Prod.fst = rules.map Prod.fst := by
  induction rules generalizing names with
  | nil => rfl
  | cons r rest ih => simp only [splitRules, List.map_cons, ih]

theorem map_fst_links_splitRules (names : List Variable) (rules : List Rule) :
    ((splitRules names rules).flatMap fun r => r.2.flatMap Prod.snd).map Prod.fst =
      names.take (chainLengths (rules.flatMap Prod.snd)) := by
  induction rules generalizing names with
  | nil => simp [splitRules, chainLengths]
  | cons r rest ih =>
      simp only [splitRules, List.flatMap_cons, List.map_append, map_fst_splitBodies, ih,
        chainLengths_append, List.take_add]

namespace Grammar

/-- The names of the chain variables: `N` and a number. -/
def chainNames (g : Grammar) : List Variable := g.freshVariables 'N' (chainLengths g.bodies)

/-- All bodies of a grammar split. -/
def chains (g : Grammar) : List (Variable × List (Body × List Link)) :=
  splitRules g.chainNames g.rules

/-- All chain variables with their bodies, in the order they are introduced. -/
def links (g : Grammar) : List Link :=
  g.chains.flatMap fun r => r.2.flatMap Prod.snd

@[simp] theorem map_fst_chains (g : Grammar) : g.chains.map Prod.fst = g.defined :=
  map_fst_splitRules g.chainNames g.rules

@[simp] theorem map_fst_links (g : Grammar) : g.links.map Prod.fst = g.chainNames := by
  have h := map_fst_links_splitRules g.chainNames g.rules
  rw [links, chains, h, List.take_of_length_le]
  exact Nat.le_of_eq (g.length_freshVariables 'N' (chainLengths g.bodies))

/-- Break every body of three or more symbols into a chain of two-symbol
    bodies. The chain variables come after all others. -/
def eliminateLong (g : Grammar) : Grammar where
  rules := (g.chains.map fun r => (r.1, r.2.map Prod.fst)) ++ g.links.map fun l => (l.1, [l.2])
  distinct := by
    have h := g.nodup_defined_append_freshVariables 'N' (chainLengths g.bodies)
    rw [List.map_append, List.map_map, List.map_map]
    exact g.map_fst_chains.symm ▸ g.map_fst_links.symm ▸ h

end Grammar

end Chomsky
