import Chomsky.Proofs.FreshNames
import Chomsky.Proofs.Redefinition

/-!
# Names Drawn One by One

The last two stages as loops that call for a name where they need one.

Breaking up long bodies was defined with all names drawn beforehand, each body being
handed its share, and isolating terminals with a table made before any body is
touched. Both can also be told the way they go through a grammar. A generator goes
along, and what has been introduced is written down. The next symbol of a long body
calls for the variable of its link. A terminal in a body of two symbols calls for a
variable if it is not in the table yet, and is entered.

It comes to the same, for different reasons. The loop over long bodies calls as often
as there are links, in the order of the links, so the names it is given are the list
that was drawn beforehand. What is left of that list goes along with the state.

The other loop looks up a terminal in a part of the table. But the table only ever
grows at its end, so what is found in a part is found in the whole as well. `Isolates`
says so of any piece of that loop, and it passes from the rounds to the loop. That is
proved once and used for the symbols of a body, the bodies of a rule and the rules.

## Main definitions

* `FreshNames.next`: A call as a function.
* `FreshNames.Supplies`: The names that a generator is going to return.
* `Drawing`: A generator with what has been introduced.
* `Grammar.chainAll`, `Grammar.isolateAll`: The two loops.
* `Drawing.Entered`: The table with some terminals entered.
* `Drawing.Isolates`: What a piece of the second loop does.

## Theorems

* `next_eq_of_next`: The function has the outcome of the call.
* `run_foldlM_takeUp`: The loop over the symbols of a long body.
* `chainAll_eq`: The loop over all bodies breaks up the long ones.
* `exists_run_variableOf`: A terminal has its variable, entered before or now.
* `isolates_mapM`: A loop isolates terminals if its rounds do.
* `isolateAll_eq`: The loop over all bodies isolates terminals.
-/

namespace Chomsky

namespace FreshNames

/-- A call: the variable that it returns and the state that it leaves. -/
def next (s : FreshNames) : Variable × FreshNames :=
  let k := nextFree s.letter s.taken s.taken.length s.counter
  let v := freshVariable s.letter k
  (v, { s with counter := k + 1, taken := v.name :: s.taken })

theorem of_next (s t : FreshNames) (n : Nat) (v : Variable) (h : Next s n v t) :
    t.letter = s.letter ∧ t.taken = v.name :: s.taken := by
  induction h with
  | found s _ => exact ⟨rfl, rfl⟩
  | passed s n v t _ _ ih => exact ih

/-- The function has the outcome of the call. -/
theorem next_eq_of_next (s t : FreshNames) (n : Nat) (v : Variable) (h : Next s n v t) :
    s.next = (v, t) := by
  -- A call is known to find the next free number, and no call has two outcomes.
  rcases s.next_nextFree s.taken fun _ _ => Iff.rfl with ⟨m, u, hu, hcounter, _⟩
  rcases next_unique s t u n m v _ h hu with ⟨_, rfl, rfl⟩
  rcases of_next s t m _ hu with ⟨hletter, htaken⟩
  cases t
  simp only at hletter htaken hcounter
  rw [next, hletter, htaken, hcounter]

/-- The names that a generator is going to return, in order. -/
def Supplies (s : FreshNames) (names : List Variable) : Prop := ∃ t, Draws s names t

theorem Supplies.next {s : FreshNames} {v : Variable} {names : List Variable}
    (h : s.Supplies (v :: names)) : ∃ t, s.next = (v, t) ∧ t.Supplies names := by
  rcases h with ⟨u, hu⟩
  cases hu with
  | cons _ n _ t _ _ hnext hrest => exact ⟨t, next_eq_of_next s t n v hnext, u, hrest⟩

/-- The generator for a grammar is going to return the names that are drawn at once. -/
theorem supplies_ofGrammar (g : Grammar) (letter : Char) (count : Nat) :
    (ofGrammar g letter).Supplies (g.freshVariables letter count) :=
  draws_freeNumbers g letter count _ (tracks_ofGrammar g letter)

end FreshNames

/-- What a stage carries along: a generator, and what has been introduced. -/
structure Drawing (α : Type) where
  names : FreshNames
  introduced : List α

namespace Drawing

variable {α : Type}

/-- Call for the next variable. -/
def call : StateM (Drawing α) Variable :=
  modifyGet fun d => (d.names.next.1, { d with names := d.names.next.2 })

/-- Write down what has been introduced. -/
def introduce (a : α) : StateM (Drawing α) Unit :=
  modify fun d => { d with introduced := d.introduced ++ [a] }

/-- Take up one more symbol of a long body by a new link. -/
def takeUp (prev x : Symbol) : StateM (Drawing Link) Symbol := do
  let v ← call
  introduce (v, [prev, x])
  return .nonterminal v

/-- Chain up a body of three or more symbols, from the first one to the last but
    one. -/
def chainBody : Body → StateM (Drawing Link) Body
  | first :: x :: y :: rest => do
      let prev ← (x :: y :: rest).dropLast.foldlM takeUp first
      return [prev, (x :: y :: rest).getLast (List.cons_ne_nil x _)]
  | body => return body

/-- Chain up the bodies of a rule. -/
def chainRule (r : Rule) : StateM (Drawing Link) Rule :=
  return (r.1, ← r.2.mapM chainBody)

/-- The variable of a terminal: the one that was entered for it, or else a new one. -/
def variableOf (t : Terminal) : StateM (Drawing (Terminal × Variable)) Variable := do
  match (← get).introduced.lookup t with
  | some v => return v
  | none =>
      let v ← call
      introduce (t, v)
      return v

/-- Put the variable of a terminal in its place. -/
def isolateSymbol : Symbol → StateM (Drawing (Terminal × Variable)) Symbol
  | .terminal t => return .nonterminal (← variableOf t)
  | .nonterminal v => return .nonterminal v

/-- Isolate the terminals of a body of two symbols. -/
def isolateBody (body : Body) : StateM (Drawing (Terminal × Variable)) Body :=
  if body.length = 2 then body.mapM isolateSymbol else return body

/-- Isolate the terminals in the bodies of a rule. -/
def isolateRule (r : Rule) : StateM (Drawing (Terminal × Variable)) Rule :=
  return (r.1, ← r.2.mapM isolateBody)

end Drawing

namespace Grammar

/-- The loop that breaks up long bodies. The chain variables come after all others. -/
def chainAll (g : Grammar) : Grammar :=
  let (rules, d) := (g.rules.mapM Drawing.chainRule).run ⟨.ofGrammar g 'N', []⟩
  ofRules (rules ++ d.introduced.map fun l => (l.1, [l.2]))

/-- The loop that isolates terminals. Their variables come after all others. -/
def isolateAll (g : Grammar) : Grammar :=
  let (rules, d) := (g.rules.mapM Drawing.isolateRule).run ⟨.ofGrammar g 'T', []⟩
  ofRules (rules ++ d.introduced.map fun p => (p.2, [[.terminal p.1]]))

end Grammar

namespace Drawing

/-- Behind a step of a loop comes the rest of it, in the state that the step leaves. -/
theorem run_bind {σ α β : Type} (x : StateM σ α) (f : α → StateM σ β) (d : σ) :
    (x >>= f).run d = (f (x.run d).1).run (x.run d).2 := rfl

theorem run_mapM_nil {σ α β : Type} (f : α → StateM σ β) (d : σ) :
    (List.mapM f []).run d = ([], d) := by
  rw [List.mapM_nil]
  rfl

theorem run_mapM_cons {σ α β : Type} (f : α → StateM σ β) (a : α) (rest : List α) (d : σ) :
    (List.mapM f (a :: rest)).run d =
      (((f a).run d).1 :: ((rest.mapM f).run ((f a).run d).2).1,
        ((rest.mapM f).run ((f a).run d).2).2) := by
  rw [List.mapM_cons, run_bind, run_bind]
  rfl

theorem run_takeUp (prev x : Symbol) (d : Drawing Link) (v : Variable) (s : FreshNames)
    (h : d.names.next = (v, s)) :
    (takeUp prev x).run d = (.nonterminal v, ⟨s, d.introduced ++ [(v, [prev, x])]⟩) := by
  change (Symbol.nonterminal d.names.next.1, (⟨d.names.next.2,
    d.introduced ++ [(d.names.next.1, [prev, x])]⟩ : Drawing Link)) = _
  rw [h]

/-- The loop over the symbols of a long body makes the links of its chain, and leaves
    what the chain leaves. -/
theorem run_foldlM_takeUp (first : Symbol) (rest : Body) (names : List Variable)
    (d : Drawing Link) (hrest : rest ≠ []) (hnames : rest.length - 1 ≤ names.length)
    (hs : d.names.Supplies names) :
    ∃ s prev, s.Supplies (names.drop (rest.length - 1)) ∧
      (rest.dropLast.foldlM takeUp first).run d =
        (prev, ⟨s, d.introduced ++ (Body.chain first rest names).2⟩) ∧
      (Body.chain first rest names).1 = [prev, rest.getLast hrest] := by
  -- On the recursion of the chain, which uses up a name with every symbol but the last.
  fun_induction Body.chain first rest names generalizing d with
  | case1 first x y rest v names body tail heq ih =>
      rcases hs.next with ⟨s, hv, hs⟩
      rcases ih ⟨s, d.introduced ++ [(v, [first, x])]⟩ (List.cons_ne_nil y rest)
        (by simp only [List.length_cons] at hnames ⊢; omega) hs with ⟨t, prev, ht, hrun, hbody⟩
      rw [heq] at hrun hbody
      refine ⟨t, prev, ht, ?_, hbody⟩
      rw [List.dropLast_cons_of_ne_nil (List.cons_ne_nil y rest), List.foldlM_cons, run_bind,
        run_takeUp first x d v s hv]
      simpa using hrun
  | case2 first rest names hstop =>
      rcases rest with _ | ⟨x, _ | ⟨y, rest⟩⟩
      · exact absurd rfl hrest
      · exact ⟨d.names, first, by simpa using hs, by simp; rfl, rfl⟩
      · -- With two symbols left there would be a name for one more link.
        cases names with
        | nil =>
            simp only [List.length_cons, List.length_nil] at hnames
            omega
        | cons v names => exact (hstop x y rest v names rfl rfl).elim

/-- A body is split with the names that the generator is going to return. -/
theorem run_chainBody (body : Body) (names : List Variable) (d : Drawing Link)
    (hnames : body.chainLength ≤ names.length) (hs : d.names.Supplies names) :
    ∃ s, s.Supplies (names.drop body.chainLength) ∧
      (chainBody body).run d =
        ((body.split names).1, ⟨s, d.introduced ++ (body.split names).2⟩) := by
  rcases body with _ | ⟨first, _ | ⟨x, _ | ⟨y, rest⟩⟩⟩
  · exact ⟨d.names, hs, by simp [chainBody, Body.split]; rfl⟩
  · exact ⟨d.names, hs, by simp [chainBody, Body.split, Body.chain]; rfl⟩
  · exact ⟨d.names, hs, by simp [chainBody, Body.split, Body.chain]; rfl⟩
  · rcases run_foldlM_takeUp first (x :: y :: rest) names d (List.cons_ne_nil x _) hnames hs with
      ⟨s, prev, hs, hrun, hbody⟩
    refine ⟨s, hs, ?_⟩
    rw [chainBody, run_bind, hrun, Body.split, hbody]
    rfl

/-- The bodies of a rule are split one after the other. -/
theorem run_mapM_chainBody (bodies : List Body) (names : List Variable) (d : Drawing Link)
    (hnames : chainLengths bodies ≤ names.length) (hs : d.names.Supplies names) :
    ∃ s, s.Supplies (names.drop (chainLengths bodies)) ∧
      (bodies.mapM chainBody).run d = ((splitBodies names bodies).map Prod.fst,
        ⟨s, d.introduced ++ (splitBodies names bodies).flatMap Prod.snd⟩) := by
  induction bodies generalizing names d with
  | nil =>
      refine ⟨d.names, hs, ?_⟩
      rw [run_mapM_nil, splitBodies, List.flatMap_nil, List.append_nil]
      rfl
  | cons body rest ih =>
      -- The names behind the share of a body are left to those that follow.
      rw [chainLengths] at hnames
      rcases run_chainBody body names d (by omega) hs with ⟨s, hs, hbody⟩
      rcases ih (names.drop body.chainLength) ⟨s, d.introduced ++ (body.split names).2⟩
        (by rw [List.length_drop]; omega) hs with ⟨t, ht, hrest⟩
      refine ⟨t, by rwa [List.drop_drop] at ht, ?_⟩
      rw [run_mapM_cons, hbody, hrest, splitBodies, List.map_cons, List.flatMap_cons,
        ← List.append_assoc]

theorem run_chainRule (r : Rule) (d : Drawing Link) : (chainRule r).run d =
    ((r.1, ((r.2.mapM chainBody).run d).1), ((r.2.mapM chainBody).run d).2) := rfl

theorem run_mapM_chainRule (rules : List Rule) (names : List Variable) (d : Drawing Link)
    (hnames : chainLengths (rules.flatMap Prod.snd) ≤ names.length)
    (hs : d.names.Supplies names) :
    ∃ s, (rules.mapM chainRule).run d =
      ((splitRules names rules).map fun r => (r.1, r.2.map Prod.fst),
        ⟨s, d.introduced ++ (splitRules names rules).flatMap fun r => r.2.flatMap Prod.snd⟩) := by
  induction rules generalizing names d with
  | nil =>
      refine ⟨d.names, ?_⟩
      rw [run_mapM_nil, splitRules, List.flatMap_nil, List.append_nil]
      rfl
  | cons r rest ih =>
      rw [List.flatMap_cons, chainLengths_append] at hnames
      rcases run_mapM_chainBody r.2 names d (by omega) hs with ⟨s, hs, hbodies⟩
      rcases ih (names.drop (chainLengths r.2))
        ⟨s, d.introduced ++ (splitBodies names r.2).flatMap Prod.snd⟩
        (by rw [List.length_drop]; omega) hs with ⟨t, hrest⟩
      refine ⟨t, ?_⟩
      rw [run_mapM_cons, run_chainRule, hbodies, hrest, splitRules, List.map_cons,
        List.flatMap_cons, ← List.append_assoc]

end Drawing

namespace Grammar

/-- The loop over all bodies breaks up the long ones. -/
theorem chainAll_eq (g : Grammar) : g.chainAll = g.eliminateLong := by
  have hcount := Nat.le_of_eq (g.length_freshVariables 'N' (chainLengths g.bodies)).symm
  rcases Drawing.run_mapM_chainRule g.rules g.chainNames ⟨.ofGrammar g 'N', []⟩ hcount
    (FreshNames.supplies_ofGrammar g 'N' _) with ⟨s, hrun⟩
  rw [chainAll, hrun]
  exact g.eliminateLong.ofRules_rules

end Grammar

namespace Drawing

/-- The table has the given terminals, each with the name that it was given when it was
    entered, and the generator is going to return the names that are left. -/
structure Entered (names : List Variable) (terminals : List Terminal)
    (d : Drawing (Terminal × Variable)) : Prop where
  table : d.introduced = terminals.zip names
  supplies : d.names.Supplies (names.drop terminals.length)

/-- The pairs of a beginning are a beginning of the pairs. -/
theorem zip_prefix_zip {α β : Type} (xs more : List α) (zs : List β) :
    xs.zip zs <+: (xs ++ more).zip zs := by
  induction xs generalizing zs with
  | nil => exact List.nil_prefix
  | cons x xs ih =>
      cases zs with
      | nil => exact List.nil_prefix
      | cons z zs => exact (List.prefix_cons_inj (x, z)).mpr (ih zs)

/-- One more element is paired with the first one that is left over. -/
theorem zip_concat {α β : Type} (xs : List α) (x : α) (zs rest : List β) (z : β)
    (h : zs.drop xs.length = z :: rest) : (xs ++ [x]).zip zs = xs.zip zs ++ [(x, z)] := by
  induction xs generalizing zs with
  | nil =>
      rw [List.length_nil, List.drop_zero] at h
      rw [h]
      rfl
  | cons y ys ih =>
      cases zs with
      | nil => exact absurd h (by simp only [List.drop_nil, reduceCtorEq, not_false_eq_true])
      | cons w ws => exact congrArg ((y, w) :: ·) (ih ws h)

theorem lookup_of_prefix {α β : Type} [BEq α] [LawfulBEq α] (part table : List (α × β))
    (h : part <+: table) (a : α) (b : β) (hb : part.lookup a = some b) :
    table.lookup a = some b := by
  rcases h with ⟨more, rfl⟩
  rw [List.lookup_append, hb, Option.some_or]

theorem run_variableOf (t : Terminal) (d : Drawing (Terminal × Variable)) :
    (variableOf t).run d =
      match d.introduced.lookup t with
      | some v => (v, d)
      | none => (d.names.next.1, ⟨d.names.next.2, d.introduced ++ [(t, d.names.next.1)]⟩) := by
  rw [variableOf, run_bind]
  change (match d.introduced.lookup t with
    | some v => pure v
    | none => do
        let v ← call
        introduce (t, v)
        return v : StateM (Drawing (Terminal × Variable)) Variable).run d = _
  cases d.introduced.lookup t with
  | some v => rfl
  | none => rfl

/-- A terminal has its variable, entered before or now. -/
theorem exists_run_variableOf (names : List Variable) (seen : List Terminal)
    (d : Drawing (Terminal × Variable)) (H : Entered names seen.eraseDups d) (t : Terminal)
    (hnames : (seen ++ [t]).eraseDups.length ≤ names.length) :
    ∃ v d₁, (variableOf t).run d = (v, d₁) ∧ d₁.introduced.lookup t = some v ∧
      Entered names (seen ++ [t]).eraseDups d₁ := by
  rw [eraseDups_concat] at hnames ⊢
  rw [run_variableOf]
  by_cases ht : t ∈ seen
  · rw [if_pos ht] at hnames ⊢
    have hkeys : d.introduced.map Prod.fst = seen.eraseDups := by
      rw [H.table, List.map_fst_zip hnames]
    cases hv : d.introduced.lookup t with
    | some v => exact ⟨v, d, rfl, hv, H⟩
    | none =>
        -- What was met before is in the table.
        have hkey : t ∈ d.introduced.map Prod.fst := hkeys ▸ List.mem_eraseDups.mpr ht
        rcases List.mem_map.mp hkey with ⟨p, hp, rfl⟩
        have hne := List.lookup_eq_none_iff.mp hv p hp
        rw [bne_self_eq_false] at hne
        exact absurd hne Bool.false_ne_true
  · -- A new terminal is entered with the first of the names that are left.
    rw [if_neg ht] at hnames ⊢
    rw [List.length_append, List.length_singleton] at hnames
    have hnone : d.introduced.lookup t = none := by
      refine List.lookup_eq_none_iff.mpr fun p hp => ?_
      rw [H.table] at hp
      have hseen := List.mem_eraseDups.mp (List.of_mem_zip hp).1
      exact bne_iff_ne.mpr fun he => ht (he ▸ hseen)
    have hleft := List.drop_eq_getElem_cons hnames
    have hs := H.supplies
    rw [hleft] at hs
    rcases hs.next with ⟨s, hv, hs⟩
    rw [hnone, hv]
    refine ⟨_, _, rfl, ?_, ?_, ?_⟩
    · rw [List.lookup_append, hnone, Option.none_or]
      exact List.lookup_cons_self
    · rw [zip_concat _ t names _ _ hleft, H.table]
    · rw [List.length_append, List.length_singleton]
      exact hs

/-- The table only grows at its end. -/
theorem Entered.table_grows {names : List Variable} {seen more : List Terminal}
    {d d₁ : Drawing (Terminal × Variable)} (H : Entered names seen.eraseDups d)
    (H₁ : Entered names (seen ++ more).eraseDups d₁) : d.introduced <+: d₁.introduced := by
  rw [H.table, H₁.table, List.eraseDups_append]
  exact zip_prefix_zip _ _ names

/-- A loop isolates the terminals that it meets. Behind it they are in the table, and its
    result is as if every terminal had been looked up in the table as it is then, or as
    it is at any time later. -/
def Isolates {β : Type} (names : List Variable) (loop : StateM (Drawing (Terminal × Variable)) β)
    (met : List Terminal) (result : List (Terminal × Variable) → β) : Prop :=
  ∀ seen d, Entered names seen.eraseDups d → (seen ++ met).eraseDups.length ≤ names.length →
    ∃ d₁, Entered names (seen ++ met).eraseDups d₁ ∧
      ∀ table, d₁.introduced <+: table → loop.run d = (result table, d₁)

theorem isolates_symbol (names : List Variable) (s : Symbol) :
    Isolates names (isolateSymbol s) s.asTerminal.toList fun table => s.isolate table := by
  intro seen d H hnames
  cases s with
  | nonterminal v =>
      refine ⟨d, by simpa [Symbol.asTerminal] using H, fun table _ => rfl⟩
  | terminal t =>
      rcases exists_run_variableOf names seen d H t hnames with ⟨v, d₁, hrun, hv, H₁⟩
      refine ⟨d₁, H₁, fun table htable => ?_⟩
      rw [isolateSymbol, run_bind, hrun]
      simp only [Symbol.isolate, lookup_of_prefix _ table htable t v hv]
      rfl

/-- So does a loop over a list whose rounds do. -/
theorem isolates_mapM {α β : Type} (names : List Variable)
    (f : α → StateM (Drawing (Terminal × Variable)) β) (met : α → List Terminal)
    (result : List (Terminal × Variable) → α → β)
    (h : ∀ a, Isolates names (f a) (met a) fun table => result table a) (xs : List α) :
    Isolates names (xs.mapM f) (xs.flatMap met) fun table => xs.map (result table) := by
  induction xs with
  | nil =>
      intro seen d H _
      refine ⟨d, by rwa [List.flatMap_nil, List.append_nil], fun table _ => run_mapM_nil f d⟩
  | cons a rest ih =>
      intro seen d H hnames
      rw [List.flatMap_cons, ← List.append_assoc] at hnames ⊢
      have hle : (seen ++ met a).eraseDups.length ≤ names.length := by
        rw [List.eraseDups_append, List.length_append] at hnames
        omega
      rcases h a seen d H hle with ⟨d₁, H₁, hfirst⟩
      rcases ih (seen ++ met a) d₁ H₁ hnames with ⟨d₂, H₂, hrest⟩
      refine ⟨d₂, H₂, fun table htable => ?_⟩
      -- What the first round has found is still there behind the others.
      rw [run_mapM_cons, hfirst table ((H₁.table_grows H₂).trans htable), hrest table htable]
      rfl

/-- The terminals of a body of two symbols. -/
def paired (body : Body) : List Terminal :=
  if body.length = 2 then body.filterMap Symbol.asTerminal else []

theorem filterMap_flatten_filter (bodies : List Body) :
    ((bodies.filter fun body => body.length = 2).flatten.filterMap Symbol.asTerminal) =
      bodies.flatMap paired := by
  induction bodies with
  | nil => rfl
  | cons body rest ih =>
      rw [List.flatMap_cons, ← ih, paired]
      by_cases hlen : body.length = 2
      · rw [if_pos hlen, List.filter_cons_of_pos (by simpa using hlen), List.flatten_cons,
          List.filterMap_append]
      · rw [if_neg hlen, List.filter_cons_of_neg (by simpa using hlen), List.nil_append]

theorem isolates_body (names : List Variable) (body : Body) :
    Isolates names (isolateBody body) (paired body) fun table => body.isolate table := by
  have hsymbols := isolates_mapM names isolateSymbol _ _ (isolates_symbol names) body
  rw [← List.filterMap_eq_flatMap_toList] at hsymbols
  by_cases hlen : body.length = 2
  · simpa only [isolateBody, paired, Body.isolate, if_pos hlen] using hsymbols
  · -- Nothing is met in a body of another length.
    intro seen d H _
    rw [paired, if_neg hlen, List.append_nil]
    refine ⟨d, H, fun table _ => ?_⟩
    have hsame : body.isolate table = body := if_neg hlen
    rw [isolateBody, if_neg hlen]
    exact congrArg (·, d) hsame.symm

theorem isolates_rule (names : List Variable) (r : Rule) :
    Isolates names (isolateRule r) (r.2.flatMap paired) fun table =>
      (r.1, r.2.map (Body.isolate table)) := by
  intro seen d H hnames
  rcases isolates_mapM names isolateBody _ _ (isolates_body names) r.2 seen d H hnames with
    ⟨d₁, H₁, hrun⟩
  refine ⟨d₁, H₁, fun table htable => ?_⟩
  rw [isolateRule, run_bind, hrun table htable]
  rfl

end Drawing

namespace Grammar

theorem pairedTerminals_eq (g : Grammar) :
    g.pairedTerminals = (g.rules.flatMap fun r => r.2.flatMap Drawing.paired).eraseDups := by
  rw [pairedTerminals, Drawing.filterMap_flatten_filter, bodies, List.flatMap_assoc]

/-- The loop over all bodies isolates terminals. -/
theorem isolateAll_eq (g : Grammar) : g.isolateAll = g.isolateTerminals := by
  have hstart : Drawing.Entered g.terminalNames ([] : List Terminal).eraseDups
      ⟨.ofGrammar g 'T', []⟩ :=
    ⟨rfl, FreshNames.supplies_ofGrammar g 'T' _⟩
  have hcount : (([] : List Terminal) ++
      g.rules.flatMap fun r => r.2.flatMap Drawing.paired).eraseDups.length ≤
      g.terminalNames.length := by
    rw [List.nil_append, ← pairedTerminals_eq]
    exact Nat.le_of_eq (g.length_freshVariables 'T' g.pairedTerminals.length).symm
  rcases Drawing.isolates_mapM g.terminalNames Drawing.isolateRule _ _
    (Drawing.isolates_rule g.terminalNames) g.rules [] _ hstart hcount with ⟨d, H, hrun⟩
  rw [List.nil_append, ← pairedTerminals_eq] at H
  -- Behind the last round the table is the one that was made beforehand.
  have htable : d.introduced = g.isolation := H.table
  rw [isolateAll, hrun g.isolation (htable ▸ List.prefix_refl _)]
  simp only [htable]
  exact g.isolateTerminals.ofRules_rules

end Grammar

end Chomsky
