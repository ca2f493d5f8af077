import Chomsky.Proofs.Binary
import Chomsky.Proofs.Isolation

/-!
# Introduced Variables and Their Words

What the variables mean that the last two stages add to a grammar.

A body of three or more symbols comes out as a chain. Its first variable has the
first two symbols of the body for its only alternative, and every further one has
the variable before it and the next symbol. `Chained` says so of a grammar and
two bodies, whatever way the grammar came about. It is enough to tell the words:
unrolling the chain from its beginning, the variable at place `j` derives what the
first `j + 2` symbols of the body derive in a row.

The symbols of the body belong to the grammar before the stage. They derive there
what they derive afterwards, since no introduced variable is among them. So the
words of a chain variable can be read off the grammar as it was.

## Main definitions

* `Grammar.introduced`: The variables that one grammar has on top of another.
* `Chained`: Variables chain up a body from the left.
* `Grammar.ChainOf`: The chain of one alternative.

## Theorems

* `introduced_eliminateLong`, `introduced_isolateTerminals`: The fresh names.
* `language_of_chained`: A chain variable derives a beginning of the body.
* `chained_chain`: Chaining leaves a chain.
* `exists_chainOf`: Every long alternative has its chain.
* `language_introduced`: The words of all variables after the two stages.
-/

namespace Chomsky

/-- In a grammar, variables chain up a body from the left: the first one has its
    first two symbols as the only alternative, and the chain goes on with that
    variable in their place. The last two symbols are left over. -/
inductive Chained (h : Grammar) : Body → List Variable → Body → Prop where
  | pair (x y : Symbol) : Chained h [x, y] [] [x, y]
  | link (x y z : Symbol) (rest : Body) (n : Variable) (names : List Variable) (short : Body)
      (only : h.alternatives n = [[x, y]])
      (tail : Chained h (.nonterminal n :: z :: rest) names short) :
      Chained h (x :: y :: z :: rest) (n :: names) short

theorem length_of_chained (h : Grammar) (body : Body) (names : List Variable) (short : Body)
    (hc : Chained h body names short) : names.length + 2 = body.length := by
  induction hc with
  | pair x y => rfl
  | link x y z rest n names short _ _ ih =>
      simp only [List.length_cons] at ih ⊢
      omega

/-- A chain variable derives the words of a beginning of the body, which is one
    symbol longer than that of the variable before it. -/
theorem language_of_chained (h : Grammar) (body : Body) (names : List Variable) (short : Body)
    (hc : Chained h body names short) (j : Nat) (n : Variable) (hn : names[j]? = some n) :
    h.language n = Body.language h.language (body.take (j + 2)) := by
  induction hc generalizing j with
  | pair x y => exact absurd hn (by simp only [List.getElem?_nil, reduceCtorEq, not_false_eq_true])
  | link x y z rest m names short only _ ih =>
      have hm : h.language m = Body.language h.language [x, y] :=
        h.language_of_alternatives_eq m [x, y] only (List.cons_ne_nil _ _)
      cases j with
      | zero =>
          rw [List.getElem?_cons_zero, Option.some.injEq] at hn
          rw [← hn, hm]
          rfl
      | succ j =>
          rw [List.getElem?_cons_succ] at hn
          -- The variable in front stands for the two symbols it has taken up.
          calc h.language n
            _ = Body.language h.language (.nonterminal m :: (z :: rest).take (j + 1)) := ih j hn
            _ = h.language m * Body.language h.language ((z :: rest).take (j + 1)) :=
                Body.language_cons h.language _ _
            _ = Body.language h.language ([x, y] ++ (z :: rest).take (j + 1)) := by
                rw [hm, Body.language_append]

/-- With a name for every link and every link as an only alternative, chaining
    symbols leaves a chain. -/
theorem chained_chain (h : Grammar) (first : Symbol) (rest : Body) (names : List Variable)
    (hnames : rest.length - 1 ≤ names.length) (hrest : rest ≠ [])
    (hlinks : ∀ l ∈ (Body.chain first rest names).2, h.alternatives l.1 = [l.2]) :
    Chained h (first :: rest) ((Body.chain first rest names).2.map Prod.fst)
      (Body.chain first rest names).1 := by
  fun_induction Body.chain first rest names with
  | case1 first x y rest v names body tail heq ih =>
      rw [heq] at ih
      simp only [List.length_cons] at hnames ih
      refine Chained.link first x y rest v _ body (hlinks (v, [first, x]) List.mem_cons_self) ?_
      exact ih (by omega) (List.cons_ne_nil y rest) fun l hl => hlinks l (List.mem_cons_of_mem _ hl)
  | case2 first rest names hstop =>
      rcases rest with _ | ⟨x, _ | ⟨y, rest⟩⟩
      · exact absurd rfl hrest
      · exact Chained.pair first x
      · -- With two symbols left there would be a name for one more link.
        cases names with
        | nil =>
            simp only [List.length_cons, List.length_nil] at hnames
            omega
        | cons v names => exact (hstop x y rest v names rfl rfl).elim

theorem chained_split (h : Grammar) (names : List Variable) (body : Body)
    (hnames : body.chainLength ≤ names.length) (hlong : 2 ≤ body.length)
    (hlinks : ∀ l ∈ (body.split names).2, h.alternatives l.1 = [l.2]) :
    Chained h body ((body.split names).2.map Prod.fst) (body.split names).1 := by
  cases body with
  | nil =>
      simp only [List.length_nil] at hlong
      omega
  | cons first rest =>
      refine chained_chain h first rest names hnames ?_ hlinks
      rintro rfl
      simp only [List.length_cons, List.length_nil] at hlong
      omega

/-- Each body is split with the names that those before it left over. -/
theorem getElem?_splitBodies (names : List Variable) (bodies : List Body) (place : Nat) :
    (splitBodies names bodies)[place]? =
      bodies[place]?.map fun body =>
        body.split (names.drop (chainLengths (bodies.take place))) := by
  induction bodies generalizing names place with
  | nil => simp only [splitBodies, List.getElem?_nil, Option.map_none]
  | cons body rest ih =>
      cases place with
      | zero => rfl
      | succ place =>
          simp only [splitBodies, List.getElem?_cons_succ, ih, List.take_succ_cons, chainLengths,
            List.drop_drop]

theorem chainLengths_take_le (bodies : List Body) (place : Nat) (body : Body)
    (h : bodies[place]? = some body) :
    chainLengths (bodies.take place) + body.chainLength ≤ chainLengths bodies := by
  induction bodies generalizing place with
  | nil => exact absurd h (by simp only [List.getElem?_nil, reduceCtorEq, not_false_eq_true])
  | cons first rest ih =>
      cases place with
      | zero =>
          rw [List.getElem?_cons_zero, Option.some.injEq] at h
          rw [h, List.take_zero, chainLengths, chainLengths]
          omega
      | succ place =>
          have hrest := ih place (by rwa [List.getElem?_cons_succ] at h)
          rw [List.take_succ_cons, chainLengths, chainLengths]
          omega

namespace Grammar

/-- The variables that a grammar has and another one does not. -/
def introduced (h g : Grammar) : List Variable := h.defined.filter fun v => !g.contains v

theorem mem_introduced_iff (h g : Grammar) (v : Variable) :
    v ∈ h.introduced g ↔ v ∈ h.defined ∧ v ∉ g.defined := by
  simp only [introduced, List.mem_filter, Bool.not_eq_true', ← Bool.not_eq_true, contains_iff]

theorem introduced_of_defined_append (h g : Grammar) (names : List Variable)
    (hdef : h.defined = g.defined ++ names) : h.introduced g = names := by
  have hnodup : (g.defined ++ names).Nodup := hdef ▸ h.distinct
  have hdisj := (List.nodup_append.mp hnodup).2.2
  rw [introduced, hdef, List.filter_append]
  have hold : (g.defined.filter fun v => !g.contains v) = [] := by
    refine List.filter_eq_nil_iff.mpr fun v hv => ?_
    rw [(g.contains_iff v).mpr hv]
    exact Bool.false_ne_true
  have hnew : (names.filter fun v => !g.contains v) = names := by
    refine List.filter_eq_self.mpr fun n hn => ?_
    rw [Bool.not_eq_true', ← Bool.not_eq_true, contains_iff]
    exact fun hg => hdisj n hg n hn rfl
  rw [hold, hnew, List.nil_append]

theorem introduced_eliminateLong (g : Grammar) :
    g.eliminateLong.introduced g = g.chainNames :=
  introduced_of_defined_append _ g _ g.defined_eliminateLong

theorem introduced_isolateTerminals (g : Grammar) :
    g.isolateTerminals.introduced g = g.terminalNames :=
  introduced_of_defined_append _ g _ g.defined_isolateTerminals

/-- The alternative of `v` at a place is a body of three or more symbols, and
    introduced variables chain it up to the alternative that `v` has at that place
    without long bodies. -/
structure ChainOf (g : Grammar) (v : Variable) (place : Nat) (body : Body)
    (names : List Variable) : Prop where
  source : (g.alternatives v)[place]? = some body
  long : 3 ≤ body.length
  fresh : ∀ n ∈ names, n ∈ g.eliminateLong.introduced g
  chained : ∃ short, (g.eliminateLong.alternatives v)[place]? = some short ∧
    Chained g.eliminateLong body names short

/-- The chain of an alternative is the one that its body was split into. -/
theorem chainOf_of_mem_chains (g : Grammar) (v : Variable) (names : List Variable)
    (hnames : chainLengths (g.alternatives v) ≤ names.length)
    (hr : (v, splitBodies names (g.alternatives v)) ∈ g.chains) (place : Nat) (body : Body)
    (hbody : (g.alternatives v)[place]? = some body) (hlong : 3 ≤ body.length) :
    ∃ p, (splitBodies names (g.alternatives v))[place]? = some p ∧
      g.ChainOf v place body (p.2.map Prod.fst) := by
  have hfit := chainLengths_take_le _ place body hbody
  let left := names.drop (chainLengths ((g.alternatives v).take place))
  have hp : (splitBodies names (g.alternatives v))[place]? = some (body.split left) := by
    rw [getElem?_splitBodies, hbody, Option.map_some]
  -- The links of this body are links of the grammar.
  have hlinks : ∀ l ∈ (body.split left).2, l ∈ g.links := fun l hl =>
    List.mem_flatMap.mpr ⟨_, hr, List.mem_flatMap.mpr ⟨_, List.mem_of_getElem? hp, hl⟩⟩
  refine ⟨body.split left, hp, hbody, hlong, fun n hn => ?_, (body.split left).1, ?_, ?_⟩
  · rcases List.mem_map.mp hn with ⟨l, hl, rfl⟩
    rw [introduced_eliminateLong]
    exact g.mem_chainNames_of_mem_links l (hlinks l hl)
  · rw [g.alternatives_eliminateLong_of_mem_chains _ hr, List.getElem?_map, hp, Option.map_some]
  · refine chained_split _ left body ?_ (by omega) fun l hl =>
      g.alternatives_eliminateLong_of_mem_links l (hlinks l hl)
    rw [List.length_drop]
    omega

theorem exists_chainOf (g : Grammar) (v : Variable) (place : Nat) (body : Body)
    (hbody : (g.alternatives v)[place]? = some body) (hlong : 3 ≤ body.length) :
    ∃ names, g.ChainOf v place body names := by
  have hv := g.mem_defined_of_mem_alternatives v body (List.mem_of_getElem? hbody)
  rcases g.mem_chains_of_mem_defined v hv with ⟨k, hk, hr⟩
  have hlen : chainLengths (g.alternatives v) ≤ (g.chainNames.drop k).length := by
    rw [List.length_drop]
    omega
  rcases g.chainOf_of_mem_chains v _ hlen hr place body hbody hlong with ⟨p, _, hchain⟩
  exact ⟨_, hchain⟩

/-- Every chain variable is in the chain of some alternative. -/
theorem exists_chainOf_of_mem_chainNames (g : Grammar) (n : Variable) (hn : n ∈ g.chainNames) :
    ∃ v place body names, g.ChainOf v place body names ∧ n ∈ names := by
  rw [← g.map_fst_links] at hn
  rcases List.mem_map.mp hn with ⟨l, hl, rfl⟩
  rcases List.mem_flatMap.mp hl with ⟨r, hr, hin⟩
  rcases List.mem_flatMap.mp hin with ⟨p, hp, hlp⟩
  rcases of_mem_splitRules g.chainNames g.rules r hr with ⟨q, hq, k, hk, rfl⟩
  have halt := g.alternatives_of_mem_rules q hq
  rw [← halt] at hr hp hk
  have hlen : chainLengths (g.alternatives q.1) ≤ (g.chainNames.drop k).length := by
    rw [List.length_drop, length_chainNames, bodies]
    omega
  rcases List.mem_iff_getElem?.mp hp with ⟨place, hplace⟩
  have hsplit := hplace
  rw [getElem?_splitBodies, Option.map_eq_some_iff] at hsplit
  rcases hsplit with ⟨body, hbody, hsplit⟩
  by_cases hlong : 3 ≤ body.length
  · rcases g.chainOf_of_mem_chains q.1 _ hlen hr place body hbody hlong with ⟨p', hp', hchain⟩
    rw [hplace, Option.some.injEq] at hp'
    rw [← hp'] at hchain
    exact ⟨q.1, place, body, _, hchain, List.mem_map_of_mem hlp⟩
  · -- A short body has no links at all.
    rw [← hsplit, Body.links_split_eq_nil _ body (by omega)] at hlp
    exact absurd hlp List.not_mem_nil

/-- The symbols of an alternative derive the same words before and after long
    bodies are broken up. -/
theorem language_take_eliminateLong (g : Grammar) (v : Variable) (body : Body)
    (hbody : body ∈ g.alternatives v) (count : Nat) :
    Body.language g.eliminateLong.language (body.take count) =
      Body.language g.language (body.take count) := by
  have hsame : ∀ u, .nonterminal u ∈ body.take count →
      g.eliminateLong.language u = g.language u := fun u hu => by
    refine g.language_eliminateLong_of_not_mem u fun hn => ?_
    refine g.not_mem_mentioned_of_mem_chainNames u hn ?_
    exact g.mem_mentioned_of_mem_body body u ((g.mem_bodies_iff body).mpr ⟨v, hbody⟩)
      (List.mem_of_mem_take hu)
  refine le_antisymm ?_ ?_
  · exact Body.language_mono _ _ _ fun u hu => le_of_eq (hsame u hu)
  · exact Body.language_mono _ _ _ fun u hu => le_of_eq (hsame u hu).symm

theorem exists_terminal_of_mem_terminalNames (g : Grammar) (n : Variable)
    (hn : n ∈ g.terminalNames) : ∃ t, g.isolateTerminals.alternatives n = [[.terminal t]] := by
  rw [← map_fst_terminalLinks] at hn
  rcases List.mem_map.mp hn with ⟨l, hl, rfl⟩
  rw [g.alternatives_isolateTerminals_of_mem_links l hl]
  rcases List.mem_map.mp hl with ⟨p, _, rfl⟩
  exact ⟨p.1, rfl⟩

/-- Neither stage changes the language of a variable that it does not introduce.
    Every body of three or more symbols has a chain, and every introduced chain
    variable is in one. The variable at place `j` of a chain derives exactly the
    words of the first `j + 2` symbols of the body in a row, and the variable of an
    isolated terminal derives that terminal, or the empty word for the marker. -/
theorem language_introduced (g : Grammar) :
    (∀ v, v ∉ g.eliminateLong.introduced g → g.eliminateLong.language v = g.language v) ∧
    (∀ v, v ∉ g.isolateTerminals.introduced g → g.isolateTerminals.language v = g.language v) ∧
    (∀ v place body, (g.alternatives v)[place]? = some body → 3 ≤ body.length →
      ∃ names, g.ChainOf v place body names) ∧
    (∀ n ∈ g.eliminateLong.introduced g,
      ∃ v place body names, g.ChainOf v place body names ∧ n ∈ names) ∧
    (∀ v place body names, g.ChainOf v place body names → names.length + 2 = body.length ∧
      ∀ j n, names[j]? = some n →
        g.eliminateLong.language n = Body.language g.language (body.take (j + 2))) ∧
    (∀ n ∈ g.isolateTerminals.introduced g, ∃ t,
      g.isolateTerminals.alternatives n = [[.terminal t]] ∧
      g.isolateTerminals.language n = if t.isEpsilon then 1 else {[t]}) := by
  rw [introduced_eliminateLong, introduced_isolateTerminals]
  refine ⟨g.language_eliminateLong_of_not_mem, g.language_isolateTerminals_of_not_mem,
    g.exists_chainOf, g.exists_chainOf_of_mem_chainNames, fun v place body names hc => ?_,
    fun n hn => ?_⟩
  · rcases hc.chained with ⟨short, _, hchained⟩
    refine ⟨length_of_chained _ _ _ _ hchained, fun j n hj => ?_⟩
    rw [language_of_chained _ _ _ _ hchained j n hj]
    exact g.language_take_eliminateLong v body (List.mem_of_getElem? hc.source) (j + 2)
  · rcases g.exists_terminal_of_mem_terminalNames n hn with ⟨t, ht⟩
    refine ⟨t, ht, ?_⟩
    rw [g.isolateTerminals.language_of_alternatives_eq n _ ht (List.cons_ne_nil _ _),
      Body.language_singleton, Symbol.language]

/-- A body of four symbols and a body with a marker. The first chain name is
    spoken for. -/
def partlyNumbered : Grammar := ofRules [
  (⟨"S"⟩, [[.terminal ⟨"a"⟩, .nonterminal ⟨"A"⟩, .terminal ⟨"c"⟩, .terminal ⟨"d"⟩],
    [.terminal ⟨"b"⟩, .epsilon]]),
  (⟨"A"⟩, [[.nonterminal ⟨"N1"⟩], [.terminal ⟨"b"⟩]])]

theorem language_partlyNumbered :
    partlyNumbered.eliminateLong.language ⟨"N3"⟩ = Body.language partlyNumbered.language
      [.terminal ⟨"a"⟩, .nonterminal ⟨"A"⟩, .terminal ⟨"c"⟩] ∧
    partlyNumbered.isolateTerminals.language ⟨"T2"⟩ = 1 := by
  have hchain : partlyNumbered.ChainOf ⟨"S"⟩ 0
      [.terminal ⟨"a"⟩, .nonterminal ⟨"A"⟩, .terminal ⟨"c"⟩, .terminal ⟨"d"⟩]
      [⟨"N2"⟩, ⟨"N3"⟩] := by
    refine ⟨rfl, by decide, by decide, _, rfl, ?_⟩
    exact Chained.link _ _ _ _ _ _ _ rfl (Chained.link _ _ _ _ _ _ _ rfl (Chained.pair _ _))
  have h := language_introduced partlyNumbered
  refine ⟨(h.2.2.2.2.1 _ _ _ _ hchain).2 1 ⟨"N3"⟩ rfl, ?_⟩
  rcases h.2.2.2.2.2 ⟨"T2"⟩ (by decide) with ⟨t, halt, hlang⟩
  -- The only body of this variable is the marker.
  have hmarker : [[Symbol.epsilon]] = [[Symbol.terminal t]] := halt
  simp only [Symbol.epsilon, List.cons.injEq, Symbol.terminal.injEq, and_true] at hmarker
  rw [hlang, ← hmarker]
  exact if_pos rfl

end Grammar

end Chomsky
