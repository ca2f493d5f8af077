import Chomsky.Proofs.Conversion

/-!
# What the Start Symbol Has No Say In

The start symbol and the choice to keep its empty production decide about one
body, which is `[ε]`. Nothing else in the final grammar depends on them, neither
the order of anything nor the fresh names.

The argument is that every stage overlooks the bodies `[ε]`. Take them away from a
grammar and run a stage, or run the stage and take them away: the outcome is the
same. They are not units, so they add no unit pair, and they mention no variable,
so they keep no name from being drawn. Nor do they take a name or a place in the
numbering themselves, being too short to be chained or isolated.

Two runs that differ in the start symbol or in what is kept agree up to `[ε]` after
the first stage, and by the above they still do so at the end. Whether they get
beyond the first stage depends on the limit alone.

## Main definitions

* `Grammar.dropEpsilon`: A grammar without its bodies `[ε]`.

## Theorems

* `eliminateUnits_dropEpsilon`, `eliminateLong_dropEpsilon`,
  `isolateTerminals_dropEpsilon`: The stages overlook empty productions.
* `dropEpsilon_of_eliminateEpsilon`: The first stage is the same up to `[ε]`.
* `dropEpsilon_final`: So is the whole conversion.
* `convertGrammar_independent`: Two conversions that differ in the start symbol and
  the choice to keep its empty production.
-/

namespace Chomsky

theorem filter_pushNew {α : Type} [BEq α] [LawfulBEq α] (p : α → Bool) (xs ys : List α) :
    (pushNew xs ys).filter p = pushNew (xs.filter p) (ys.filter p) := by
  induction ys generalizing xs with
  | nil => rfl
  | cons y ys ih =>
      rw [pushNew, ih]
      by_cases hy : p y = true
      · rw [List.filter_cons_of_pos hy, pushNew]
        by_cases hmem : y ∈ xs
        · have hkept : y ∈ xs.filter p := List.mem_filter.mpr ⟨hmem, hy⟩
          rw [if_pos (List.contains_iff_mem.mpr hmem), if_pos (List.contains_iff_mem.mpr hkept)]
        · have hnot : y ∉ xs.filter p := fun hc => hmem (List.mem_filter.mp hc).1
          rw [if_neg fun hc => hmem (List.contains_iff_mem.mp hc),
            if_neg fun hc => hnot (List.contains_iff_mem.mp hc), List.filter_append,
            List.filter_cons_of_pos hy, List.filter_nil]
      · -- An element that is filtered out makes no difference whether it is added or not.
        rw [List.filter_cons_of_neg hy]
        split
        · rfl
        · rw [List.filter_append, List.filter_cons_of_neg hy, List.filter_nil, List.append_nil]

theorem Body.isEpsilon_iff (body : Body) : body.isEpsilon = true ↔ body = [.epsilon] := by
  constructor
  · intro h
    rcases body with _ | ⟨s, _ | ⟨s', rest⟩⟩
    · exact absurd h Bool.false_ne_true
    · cases s with
      | nonterminal v => exact absurd h Bool.false_ne_true
      | terminal t =>
          have ht : t = .epsilon := beq_iff_eq.mp h
          rw [ht]
          rfl
    · exact absurd h Bool.false_ne_true
  · rintro rfl
    rfl

namespace Grammar

/-- The bodies of a list other than `[ε]`. -/
def nonEpsilons (bodies : List Body) : List Body := bodies.filter (!·.isEpsilon)

theorem nonEpsilons_cons (body : Body) (rest : List Body) :
    nonEpsilons (body :: rest) =
      if body = [.epsilon] then nonEpsilons rest else body :: nonEpsilons rest := by
  rw [nonEpsilons, List.filter_cons]
  by_cases hb : body = [.epsilon]
  · rw [if_pos hb, if_neg (by rw [body.isEpsilon_iff.mpr hb]; exact Bool.false_ne_true)]
    rfl
  · have hnot : body.isEpsilon = false :=
      Bool.eq_false_iff.mpr fun h => hb (body.isEpsilon_iff.mp h)
    rw [if_neg hb, if_pos (by rw [hnot]; rfl)]
    rfl

theorem mem_nonEpsilons (bodies : List Body) (body : Body) :
    body ∈ nonEpsilons bodies ↔ body ∈ bodies ∧ body ≠ [.epsilon] := by
  rw [nonEpsilons, List.mem_filter, Bool.not_eq_true', ← Bool.not_eq_true, Body.isEpsilon_iff]

theorem nonEpsilons_eq_self (bodies : List Body) (h : [.epsilon] ∉ bodies) :
    nonEpsilons bodies = bodies := by
  refine List.filter_eq_self.mpr fun body hb => ?_
  rw [Bool.not_eq_true', ← Bool.not_eq_true, Body.isEpsilon_iff]
  rintro rfl
  exact h hb

/-- A function that has nothing to say about `[ε]` overlooks it in a list. -/
theorem filterMap_nonEpsilons {α : Type} (f : Body → Option α) (hf : f [.epsilon] = none)
    (bodies : List Body) : (nonEpsilons bodies).filterMap f = bodies.filterMap f := by
  induction bodies with
  | nil => rfl
  | cons body rest ih =>
      rw [nonEpsilons_cons, List.filterMap_cons, ← ih]
      by_cases hb : body = [.epsilon]
      · rw [if_pos hb, hb, hf]
      · rw [if_neg hb, List.filterMap_cons]

theorem flatMap_nonEpsilons {α : Type} (f : Body → List α) (hf : f [.epsilon] = [])
    (bodies : List Body) : (nonEpsilons bodies).flatMap f = bodies.flatMap f := by
  induction bodies with
  | nil => rfl
  | cons body rest ih =>
      rw [nonEpsilons_cons, List.flatMap_cons, ← ih]
      by_cases hb : body = [.epsilon]
      · rw [if_pos hb, hb, hf, List.nil_append]
      · rw [if_neg hb, List.flatMap_cons]

theorem chainLengths_nonEpsilons (bodies : List Body) :
    chainLengths (nonEpsilons bodies) = chainLengths bodies := by
  induction bodies with
  | nil => rfl
  | cons body rest ih =>
      rw [nonEpsilons_cons, chainLengths, ← ih]
      by_cases hb : body = [.epsilon]
      · rw [if_pos hb, hb, Body.chainLength, List.length_singleton, Nat.zero_add]
      · rw [if_neg hb, chainLengths]

/-- A grammar without its bodies `[ε]`. -/
def dropEpsilon (g : Grammar) : Grammar := g.mapAlternatives fun _ bodies => nonEpsilons bodies

theorem rules_dropEpsilon (g : Grammar) :
    g.dropEpsilon.rules = g.rules.map fun r => (r.1, nonEpsilons r.2) := rfl

@[simp] theorem defined_dropEpsilon (g : Grammar) : g.dropEpsilon.defined = g.defined :=
  g.defined_mapAlternatives _

@[simp] theorem alternatives_dropEpsilon (g : Grammar) (v : Variable) :
    g.dropEpsilon.alternatives v = nonEpsilons (g.alternatives v) :=
  g.alternatives_mapAlternatives_of_nil _ v rfl

/-- What is read off the rules without regard to `[ε]` stays the same. -/
theorem flatMap_rules_dropEpsilon {α : Type} (g : Grammar) (f : Rule → List α)
    (hf : ∀ v bodies, f (v, nonEpsilons bodies) = f (v, bodies)) :
    g.dropEpsilon.rules.flatMap f = g.rules.flatMap f := by
  rw [rules_dropEpsilon, List.flatMap_map]
  exact List.flatMap_congr fun r _ => hf r.1 r.2

theorem bodies_dropEpsilon (g : Grammar) : g.dropEpsilon.bodies = nonEpsilons g.bodies := by
  rw [bodies, rules_dropEpsilon, List.flatMap_map, bodies, nonEpsilons, List.filter_flatMap]
  rfl

theorem mentioned_dropEpsilon (g : Grammar) : g.dropEpsilon.mentioned = g.mentioned := by
  refine g.flatMap_rules_dropEpsilon _ fun v bodies => ?_
  simp only [List.filterMap_flatten, ← List.flatMap_def]
  rw [flatMap_nonEpsilons _ rfl]

theorem freshVariables_dropEpsilon (g : Grammar) (letter : Char) (count : Nat) :
    g.dropEpsilon.freshVariables letter count = g.freshVariables letter count := by
  rw [freshVariables, freshVariables, taken, taken, mentioned_dropEpsilon]

theorem unitTargets_dropEpsilon (g : Grammar) (v : Variable) :
    g.dropEpsilon.unitTargets v = g.unitTargets v := by
  rw [unitTargets, alternatives_dropEpsilon, filterMap_nonEpsilons _ rfl, unitTargets]

theorem directPairs_dropEpsilon (g : Grammar) : g.dropEpsilon.directPairs = g.directPairs := by
  rw [directPairs, directPairs]
  refine congrArg List.eraseDups (g.flatMap_rules_dropEpsilon _ fun v bodies => ?_)
  rw [filterMap_nonEpsilons _ rfl]

theorem unitPairBound_dropEpsilon (g : Grammar) :
    g.dropEpsilon.unitPairBound = g.unitPairBound := by
  have hsize : g.dropEpsilon.size = g.size := List.length_map _
  rw [unitPairBound, hsize, unitBodies, bodies_dropEpsilon, filterMap_nonEpsilons _ rfl,
    unitPairBound, unitBodies]

end Grammar

/-- The search looks at a grammar through the targets of its unit productions. -/
theorem Worklist.run_congr (g h : Grammar) (hsame : ∀ v, h.unitTargets v = g.unitTargets v)
    (steps : Nat) (w : Worklist) : run h steps w = run g steps w := by
  induction steps generalizing w with
  | zero => rfl
  | succ n ih =>
      have hstep : w.step h = w.step g := by simp only [step, hsame]
      rw [run, run, hstep]
      cases w.step g with
      | none => rfl
      | some next => exact ih next

namespace Grammar

theorem unitPairs_dropEpsilon (g : Grammar) : g.dropEpsilon.unitPairs = g.unitPairs := by
  rw [unitPairs, unitPairBound_dropEpsilon, directPairs_dropEpsilon,
    Worklist.run_congr g g.dropEpsilon g.unitTargets_dropEpsilon, unitPairs]

theorem nonUnits_nonEpsilons (bodies : List Body) :
    nonUnits (nonEpsilons bodies) = nonEpsilons (nonUnits bodies) :=
  List.filter_comm _ _ bodies

theorem inherited_dropEpsilon (g : Grammar) (pairs : List (Variable × Variable)) (v : Variable) :
    g.dropEpsilon.inherited pairs v = nonEpsilons (g.inherited pairs v) := by
  rw [inherited, inherited, nonEpsilons, List.filter_flatMap]
  refine List.flatMap_congr fun p _ => ?_
  rw [alternatives_dropEpsilon, nonUnits_nonEpsilons]
  rfl

theorem eliminateUnits_dropEpsilon (g : Grammar) :
    g.dropEpsilon.eliminateUnits = g.eliminateUnits.dropEpsilon := by
  refine eq_of_alternatives _ _ ?_ fun v _ => ?_
  · simp
  · rw [alternatives_eliminateUnits, unitPairs_dropEpsilon, inherited_dropEpsilon,
      alternatives_dropEpsilon, nonUnits_nonEpsilons, alternatives_dropEpsilon,
      alternatives_eliminateUnits]
    exact (filter_pushNew _ _ _).symm

end Grammar

theorem Body.two_le_length_chain (first : Symbol) (rest : Body) (names : List Variable)
    (hrest : rest ≠ []) : 2 ≤ (chain first rest names).1.length := by
  fun_induction chain first rest names with
  | case1 first x y rest v names body tail heq ih =>
      rw [heq] at ih
      exact ih (List.cons_ne_nil y rest)
  | case2 first rest names _ =>
      have := List.length_pos_iff.mpr hrest
      rw [List.length_cons]
      omega

/-- Only `[ε]` is split into `[ε]`. -/
theorem Body.split_eq_epsilon_iff (names : List Variable) (body : Body) :
    (body.split names).1 = [.epsilon] ↔ body = [.epsilon] := by
  rcases body with _ | ⟨first, _ | ⟨x, rest⟩⟩
  · exact Iff.rfl
  · exact Iff.rfl
  · have hlen := two_le_length_chain first (x :: rest) names (List.cons_ne_nil x rest)
    refine iff_of_false (fun h => ?_) fun h => by simp only [List.cons.injEq, reduceCtorEq,
      and_false] at h
    rw [split] at h
    rw [h, List.length_singleton] at hlen
    omega

namespace Grammar

theorem map_fst_splitBodies_nonEpsilons (names : List Variable) (bodies : List Body) :
    (splitBodies names (nonEpsilons bodies)).map Prod.fst =
      nonEpsilons ((splitBodies names bodies).map Prod.fst) := by
  induction bodies generalizing names with
  | nil => rfl
  | cons body rest ih =>
      rw [nonEpsilons_cons, splitBodies, List.map_cons, nonEpsilons_cons, ← ih]
      by_cases hb : body = [.epsilon]
      · -- The body takes no name with it.
        rw [if_pos hb, if_pos ((body.split_eq_epsilon_iff names).mpr hb), hb, Body.chainLength,
          List.length_singleton, List.drop_zero]
      · rw [if_neg hb, if_neg fun h => hb ((body.split_eq_epsilon_iff names).mp h), splitBodies,
          List.map_cons]

theorem flatMap_snd_splitBodies_nonEpsilons (names : List Variable) (bodies : List Body) :
    (splitBodies names (nonEpsilons bodies)).flatMap Prod.snd =
      (splitBodies names bodies).flatMap Prod.snd := by
  induction bodies generalizing names with
  | nil => rfl
  | cons body rest ih =>
      rw [nonEpsilons_cons, splitBodies, List.flatMap_cons, ← ih]
      by_cases hb : body = [.epsilon]
      · rw [if_pos hb, hb, Body.chainLength, List.length_singleton, List.drop_zero]
        rfl
      · rw [if_neg hb, splitBodies, List.flatMap_cons]

theorem splitRules_nonEpsilons (names : List Variable) (rules : List Rule) :
    (splitRules names (rules.map fun r => (r.1, nonEpsilons r.2))).map
        (fun r => (r.1, r.2.map Prod.fst)) =
      (splitRules names rules).map fun r => (r.1, nonEpsilons (r.2.map Prod.fst)) := by
  induction rules generalizing names with
  | nil => rfl
  | cons r rest ih =>
      simp only [List.map_cons, splitRules, map_fst_splitBodies_nonEpsilons,
        chainLengths_nonEpsilons, ih]

theorem chainNames_dropEpsilon (g : Grammar) : g.dropEpsilon.chainNames = g.chainNames := by
  rw [chainNames, freshVariables_dropEpsilon, bodies_dropEpsilon, chainLengths_nonEpsilons,
    chainNames]

theorem links_dropEpsilon (g : Grammar) : g.dropEpsilon.links = g.links := by
  rw [links_eq, chainNames_dropEpsilon, bodies_dropEpsilon, flatMap_snd_splitBodies_nonEpsilons,
    links_eq]

theorem eliminateLong_dropEpsilon (g : Grammar) :
    g.dropEpsilon.eliminateLong = g.eliminateLong.dropEpsilon := by
  refine eq_of_rules _ _ ?_
  -- The body of a link has two symbols.
  have hlinks : (g.links.map fun l => (l.1, [l.2])).map (fun r : Rule => (r.1, nonEpsilons r.2)) =
      g.links.map fun l => (l.1, [l.2]) := by
    rw [List.map_map]
    refine List.map_congr_left fun l hl => ?_
    have hne : l.2 ≠ [.epsilon] := fun e => by
      have hlen := (g.isPiece_of_mem_links l hl).1
      rw [e, List.length_singleton] at hlen
      omega
    rw [Function.comp_apply, nonEpsilons_cons, if_neg hne]
    rfl
  have hrules : ∀ h : Grammar, h.eliminateLong.rules =
      (h.chains.map fun r => (r.1, r.2.map Prod.fst)) ++ h.links.map fun l => (l.1, [l.2]) :=
    fun _ => rfl
  rw [rules_dropEpsilon, hrules, hrules, List.map_append, hlinks, List.map_map, links_dropEpsilon,
    chains, chainNames_dropEpsilon, rules_dropEpsilon, splitRules_nonEpsilons, chains]
  rfl

theorem pairedTerminals_dropEpsilon (g : Grammar) :
    g.dropEpsilon.pairedTerminals = g.pairedTerminals := by
  have hpairs : g.dropEpsilon.bodies.filter (fun body => body.length = 2) =
      g.bodies.filter fun body => body.length = 2 := by
    rw [bodies_dropEpsilon, nonEpsilons, List.filter_filter]
    refine List.filter_congr fun body _ => ?_
    by_cases hb : body = [.epsilon]
    · rw [hb]
      rfl
    · have hnot : body.isEpsilon = false :=
        Bool.eq_false_iff.mpr fun h => hb (body.isEpsilon_iff.mp h)
      rw [hnot, Bool.not_false, Bool.and_true]
  rw [pairedTerminals, hpairs, pairedTerminals]

theorem isolation_dropEpsilon (g : Grammar) : g.dropEpsilon.isolation = g.isolation := by
  rw [isolation, terminalNames, pairedTerminals_dropEpsilon, freshVariables_dropEpsilon,
    isolation, terminalNames]

theorem nonEpsilons_map_isolate (table : List (Terminal × Variable)) (bodies : List Body) :
    nonEpsilons ((nonEpsilons bodies).map (Body.isolate table)) =
      nonEpsilons (bodies.map (Body.isolate table)) := by
  induction bodies with
  | nil => rfl
  | cons body rest ih =>
      have hiff := Body.isolate_eq_iff table body [.epsilon] (by decide)
      rw [nonEpsilons_cons, List.map_cons, nonEpsilons_cons, ← ih]
      by_cases hb : body = [.epsilon]
      · rw [if_pos hb, if_pos (hiff.mpr hb)]
      · rw [if_neg hb, if_neg fun h => hb (hiff.mp h), List.map_cons, nonEpsilons_cons,
          if_neg fun h => hb (hiff.mp h)]

/-- The variable of an isolated marker would have the body `[ε]`, so here the
    bodies are dropped once more at the end. -/
theorem isolateTerminals_dropEpsilon (g : Grammar) :
    g.dropEpsilon.isolateTerminals.dropEpsilon = g.isolateTerminals.dropEpsilon := by
  refine eq_of_rules _ _ ?_
  have hrules : ∀ h : Grammar, h.isolateTerminals.dropEpsilon.rules =
      (h.rules.map fun r => (r.1, nonEpsilons (r.2.map (Body.isolate h.isolation)))) ++
        h.isolation.map fun p => (p.2, nonEpsilons [[.terminal p.1]]) := fun h => by
    simp only [rules_dropEpsilon, isolateTerminals, List.map_append, List.map_map]
    rfl
  rw [hrules, hrules, isolation_dropEpsilon, rules_dropEpsilon, List.map_map]
  refine congrArg (· ++ _) (List.map_congr_left fun r _ => ?_)
  rw [Function.comp_apply, nonEpsilons_map_isolate]

/-- Up to empty productions, what the first stage returns does not depend on the
    start symbol. -/
theorem dropEpsilon_of_eliminateEpsilon (g r : Grammar) (start : Variable) (keep : Bool)
    (limit : Nat) (h : g.eliminateEpsilon start keep limit = .ok r) :
    r.dropEpsilon = g.withoutEpsilon := by
  refine eq_of_alternatives _ _ ?_ fun v _ => ?_
  · simp [g.defined_of_eliminateEpsilon r start keep limit h]
  · have hvariants := nonEpsilons_eq_self _ (g.epsilon_not_mem_withoutEpsilon v)
    rw [alternatives_dropEpsilon, g.alternatives_of_eliminateEpsilon r start keep limit h v,
      nonEpsilons, List.filter_append, ← nonEpsilons, hvariants]
    -- What the start symbol retains is `[ε]`.
    split
    · exact List.append_nil _
    · exact List.append_nil _

end Grammar

open Grammar

/-- A conversion fails exactly if a body has more nullable occurrences than the
    limit, whatever the start symbol. -/
theorem convertGrammar_of_excess (o : Options) (g : Grammar) (e : TooComplex)
    (h : g.excess o.maxNullable = some e) : convertGrammar o g = .error e := by
  rw [convertGrammar, runStages, eliminateEpsilon, h]
  rfl

theorem exists_of_excess_eq_none (o : Options) (g : Grammar) (h : g.excess o.maxNullable = none) :
    ∃ c, convertGrammar o g = .ok c := by
  rw [convertGrammar, runStages, eliminateEpsilon, h]
  exact ⟨_, rfl⟩

/-- Up to empty productions, the final grammar is that of the variants. -/
theorem dropEpsilon_final (o : Options) (g : Grammar) (c : Conversion)
    (h : convertGrammar o g = .ok c) : c.final.dropEpsilon =
      g.withoutEpsilon.eliminateUnits.eliminateLong.isolateTerminals.dropEpsilon := by
  rcases final_of_convertGrammar o g c h with ⟨r, hr, hfinal⟩
  rw [hfinal, ← isolateTerminals_dropEpsilon, ← eliminateLong_dropEpsilon,
    ← eliminateUnits_dropEpsilon, g.dropEpsilon_of_eliminateEpsilon r _ _ _ hr]

/-- Two conversions of a grammar that have the same limit fail with the same
    error, or neither fails. Then the final grammars are the same but for the
    bodies `[ε]`, the order of the variables, the order of the alternatives and the
    fresh names included. -/
theorem convertGrammar_independent (g : Grammar) (o₁ o₂ : Options)
    (hlimit : o₁.maxNullable = o₂.maxNullable) :
    (∃ e, convertGrammar o₁ g = .error e ∧ convertGrammar o₂ g = .error e) ∨
    ∃ c₁ c₂, convertGrammar o₁ g = .ok c₁ ∧ convertGrammar o₂ g = .ok c₂ ∧
      c₁.final.dropEpsilon = c₂.final.dropEpsilon := by
  cases hx : g.excess o₁.maxNullable with
  | some e =>
      refine Or.inl ⟨e, convertGrammar_of_excess o₁ g e hx, convertGrammar_of_excess o₂ g e ?_⟩
      rw [← hlimit]
      exact hx
  | none =>
      rcases exists_of_excess_eq_none o₁ g hx with ⟨c₁, h₁⟩
      rcases exists_of_excess_eq_none o₂ g (hlimit ▸ hx) with ⟨c₂, h₂⟩
      refine Or.inr ⟨c₁, c₂, h₁, h₂, ?_⟩
      rw [dropEpsilon_final o₁ g c₁ h₁, dropEpsilon_final o₂ g c₂ h₂]

theorem dropEpsilon_normalSurrounded :
    ∃ c, convertGrammar { startSymbol := "N1" } surrounded = .ok c ∧
      c.final ≠ normalSurrounded ∧ c.final.dropEpsilon = normalSurrounded.dropEpsilon := by
  refine ⟨_, rfl, by decide, ?_⟩
  rcases convertGrammar_independent surrounded { startSymbol := "N1" }
    { keepStartEpsilon := true } rfl with ⟨e, he, _⟩ | ⟨c₁, c₂, h₁, h₂, hsame⟩
  · exact nomatch (show Except.ok _ = Except.error e from he)
  · have hfirst := Except.ok.inj (show Except.ok _ = Except.ok c₁ from h₁)
    have hsecond := Except.ok.inj (show Except.ok _ = Except.ok c₂ from h₂)
    rw [← hfirst, ← hsecond] at hsame
    exact hsame

end Chomsky
