import Chomsky.Proofs.Binary
import Chomsky.Proofs.Epsilon
import Chomsky.Proofs.Isolation
import Chomsky.Proofs.Unit

/-!
# The Shape of the Bodies

Each stage of the conversion settles one thing about the shape of the bodies, and
none of the later ones may undo it. This module has one statement for each stage
and each property that it sets up or has to respect.

Most of the care goes into empty productions. Once they are removed, markers are
confined: the start symbol may have the body `[ε]`, once, provided that it was
retained, and no other body is zero-length or holds a marker. A retained `[ε]`
comes with the promise that the start symbol is hidden, in no body at all. Each
of the three parts needs the others later on. Removing unit productions would
copy `[ε]` to a variable with a chain to the start symbol, but such a chain ends
in a body with that symbol. Isolating terminals would give `[ε]` to a new
variable, but only for a marker in a two-symbol body. And no fresh variable can
be the start symbol, as a start symbol with a body is in the grammar.

## Main definitions

* `EpsilonConfined`: What is left of empty productions.
* `UnitFree`, `Binary`: No body is a unit, or longer than two symbols.
* `IsNormal`: A single terminal or two variables.

## Theorems

* `epsilonConfined_of_eliminateEpsilon`: Removing empty productions confines
  them.
* `epsilonConfined_eliminateUnits`, `epsilonConfined_eliminateLong`,
  `epsilonConfined_isolateTerminals`: The later stages keep them confined.
* `isNormal_isolateTerminals`: After the last stage a body is one terminal or two
  variables.
* `inNormalForm_of_isNormal`: Such bodies are in normal form.
-/

namespace Chomsky

namespace Grammar

/-- No body is zero-length or holds a marker, but for one `[ε]` of a start symbol
    that was `kept` and is in no body then. -/
structure EpsilonConfined (g : Grammar) (start : Variable) (kept : Bool) : Prop where
  count : ∀ v, (g.alternatives v).count [.epsilon] = if v = start ∧ kept = true then 1 else 0
  markerFree : ∀ v, ∀ body ∈ g.alternatives v, body ≠ [.epsilon] →
    body ≠ [] ∧ ∀ s ∈ body, s.isEpsilon = false
  hidden : kept = true → ∀ v, ∀ body ∈ g.alternatives v, .nonterminal start ∉ body

/-- No body is a unit production. -/
def UnitFree (g : Grammar) : Prop := ∀ v, ∀ body ∈ g.alternatives v, body.isUnit = false

/-- No body has more than two symbols. -/
def Binary (g : Grammar) : Prop := ∀ v, ∀ body ∈ g.alternatives v, body.length ≤ 2

namespace EpsilonConfined

variable {g : Grammar} {start : Variable} {kept : Bool}

theorem mem_iff (hg : g.EpsilonConfined start kept) (v : Variable) :
    [.epsilon] ∈ g.alternatives v ↔ v = start ∧ kept = true := by
  rw [← List.count_pos_iff, hg.count]
  by_cases h : v = start ∧ kept = true
  · rw [if_pos h]
    exact iff_of_true Nat.one_pos h
  · rw [if_neg h]
    exact iff_of_false (Nat.lt_irrefl 0) h

theorem mem_mentioned (hg : g.EpsilonConfined start kept) (hk : kept = true) :
    start ∈ g.mentioned := by
  -- The start symbol has a body, namely `[ε]`.
  have hmem := (hg.mem_iff start).mpr ⟨rfl, hk⟩
  exact g.mem_mentioned_of_mem_defined start (g.mem_defined_of_mem_alternatives start _ hmem)

theorem isEpsilon_of_length (hg : g.EpsilonConfined start kept) (body : Body)
    (hb : body ∈ g.bodies) (hlen : 2 ≤ body.length) (s : Symbol) (hs : s ∈ body) :
    s.isEpsilon = false := by
  rcases (g.mem_bodies_iff body).mp hb with ⟨v, hv⟩
  refine (hg.markerFree v body hv fun e => ?_).2 s hs
  rw [e, List.length_singleton] at hlen
  omega

theorem count_bodies (hg : g.EpsilonConfined start kept) :
    g.bodies.count [.epsilon] = if kept = true then 1 else 0 := by
  rw [Grammar.count_bodies g start [.epsilon], hg.count]
  · simp only [true_and]
  · intro u hu hmem
    exact hu ((hg.mem_iff u).mp hmem).1

end EpsilonConfined

theorem epsilonConfined_of_eliminateEpsilon (g r : Grammar) (start : Variable) (keep : Bool)
    (limit : Nat) (h : g.eliminateEpsilon start keep limit = .ok r) :
    r.EpsilonConfined start (g.retainsEpsilon start keep) where
  count := g.count_epsilon_of_eliminateEpsilon r start keep limit h
  markerFree := g.markerFree_of_eliminateEpsilon r start keep limit h
  hidden hk := by
    rw [← occursInBody_eq_false_iff, g.occursInBody_of_eliminateEpsilon r start keep limit h]
    exact ((g.retainsEpsilon_iff start keep).mp hk).2.2

theorem epsilonConfined_eliminateUnits (g : Grammar) (start : Variable) (kept : Bool)
    (hg : g.EpsilonConfined start kept) : g.eliminateUnits.EpsilonConfined start kept where
  count v := by
    -- The empty production is not a unit, and it cannot be inherited.
    have hkeep : (nonUnits (g.alternatives v)).count [.epsilon] =
        (g.alternatives v).count [.epsilon] := List.count_filter rfl
    have hnot : [.epsilon] ∉ g.inherited g.unitPairs v := by
      intro hmem
      rcases (g.mem_inherited v _).mp hmem with ⟨u, hu, hb, _⟩
      rcases (hg.mem_iff u).mp hb with ⟨rfl, hk⟩
      -- The last step of the chain is a body with the start symbol.
      rcases Relation.TransGen.tail'_iff.mp hu with ⟨x, _, hstep⟩
      exact hg.hidden hk x [.nonterminal u] hstep List.mem_cons_self
    rw [alternatives_eliminateUnits, count_pushNew _ _ _ (Or.inr hnot), hkeep, hg.count]
  markerFree v body hb := by
    rcases (g.mem_alternatives_eliminateUnits v body).mp hb with ⟨_, u, _, hu⟩
    exact hg.markerFree u body hu
  hidden hk v body hb := by
    rcases (g.mem_alternatives_eliminateUnits v body).mp hb with ⟨_, u, _, hu⟩
    exact hg.hidden hk u body hu

theorem unitFree_eliminateUnits (g : Grammar) : g.eliminateUnits.UnitFree := by
  intro v body hb
  exact ((g.mem_alternatives_eliminateUnits v body).mp hb).1

theorem epsilonConfined_eliminateLong (g : Grammar) (start : Variable) (kept : Bool)
    (hg : g.EpsilonConfined start kept) : g.eliminateLong.EpsilonConfined start kept where
  count v := by
    rw [g.count_alternatives_eliminateLong v [.epsilon] (by decide), hg.count]
  markerFree v body hb hne := by
    rcases g.of_mem_alternatives_eliminateLong v body hb with ⟨hold, _⟩ | hp
    · exact hg.markerFree v body hold hne
    · refine ⟨List.ne_nil_of_length_eq_add_one hp.1, fun s hs => ?_⟩
      rcases hp.2 s hs with ⟨old, hold, hlen, hin⟩ | ⟨n, _, rfl⟩
      · exact hg.isEpsilon_of_length old hold (by omega) s hin
      · rfl
  hidden hk v body hb hstart := by
    rcases g.of_mem_alternatives_eliminateLong v body hb with ⟨hold, _⟩ | hp
    · exact hg.hidden hk v body hold hstart
    · rcases hp.2 _ hstart with ⟨old, hold, _, hin⟩ | ⟨n, hn, he⟩
      · rcases (g.mem_bodies_iff old).mp hold with ⟨u, hu⟩
        exact hg.hidden hk u old hu hin
      · -- A chain variable is not in the grammar, but the start symbol is.
        refine g.not_mem_mentioned_of_mem_chainNames n hn ?_
        exact Symbol.nonterminal.inj he ▸ hg.mem_mentioned hk

theorem unitFree_eliminateLong (g : Grammar) (hg : g.UnitFree) : g.eliminateLong.UnitFree := by
  intro v body hb
  rcases g.of_mem_alternatives_eliminateLong v body hb with ⟨hold, _⟩ | hp
  · exact hg v body hold
  · exact body.isUnit_of_two_le_length (Nat.le_of_eq hp.1.symm)

theorem binary_eliminateLong (g : Grammar) : g.eliminateLong.Binary := by
  intro v body hb
  rcases g.of_mem_alternatives_eliminateLong v body hb with ⟨_, hlen⟩ | hp
  · exact hlen
  · exact Nat.le_of_eq hp.1

theorem epsilonConfined_isolateTerminals (g : Grammar) (start : Variable) (kept : Bool)
    (hg : g.EpsilonConfined start kept) : g.isolateTerminals.EpsilonConfined start kept := by
  -- No marker is isolated, since none is in a body of two symbols.
  have hpaired : ∀ t ∈ g.pairedTerminals, t.isEpsilon = false := by
    intro t ht
    rcases (g.mem_pairedTerminals_iff t).mp ht with ⟨body, hb, hlen, hin⟩
    exact hg.isEpsilon_of_length body hb (Nat.le_of_eq hlen.symm) (.terminal t) hin
  refine ⟨fun v => ?_, fun v body hb hne => ?_, fun hk v body hb hstart => ?_⟩
  · rw [g.count_alternatives_isolateTerminals v [.epsilon] (by decide) fun t ht he => ?_, hg.count]
    have heps : t = .epsilon := (Symbol.terminal.inj (List.cons.inj he).1).symm
    exact Bool.false_ne_true ((hpaired t ht).symm.trans (heps ▸ rfl))
  · rcases g.of_mem_alternatives_isolateTerminals v body hb with ⟨hold, _⟩ | hp | ⟨t, ht, rfl⟩
    · exact hg.markerFree v body hold hne
    · refine ⟨List.ne_nil_of_length_eq_add_one hp.1, fun s hs => ?_⟩
      rcases hp.2 s hs with ⟨u, rfl, _⟩
      rfl
    · refine ⟨List.cons_ne_nil _ _, fun s hs => ?_⟩
      rw [List.mem_singleton.mp hs]
      exact hpaired t ht
  · rcases g.of_mem_alternatives_isolateTerminals v body hb with ⟨hold, _⟩ | hp | ⟨t, _, rfl⟩
    · exact hg.hidden hk v body hold hstart
    · rcases hp.2 _ hstart with ⟨u, he, ⟨old, hold, hin⟩ | hu⟩
      · rcases (g.mem_bodies_iff old).mp hold with ⟨x, hx⟩
        exact hg.hidden hk x old hx (he ▸ hin)
      · refine g.not_mem_mentioned_of_mem_terminalNames u hu ?_
        exact Symbol.nonterminal.inj he ▸ hg.mem_mentioned hk
    · exact Symbol.noConfusion (List.mem_singleton.mp hstart)

/-- A single terminal or two variables. -/
def IsNormal (body : Body) : Prop :=
  (∃ t, body = [.terminal t]) ∨ ∃ u w, body = [.nonterminal u, .nonterminal w]

theorem isNormal_of_isPair (g : Grammar) (pair : Body) (hp : g.IsPair pair) : IsNormal pair := by
  rcases List.length_eq_two.mp hp.1 with ⟨a, b, rfl⟩
  rcases hp.2 a List.mem_cons_self with ⟨u, rfl, _⟩
  rcases hp.2 b (List.mem_cons_of_mem _ List.mem_cons_self) with ⟨w, rfl, _⟩
  exact Or.inr ⟨u, w, rfl⟩

/-- Without units, long bodies and zero-length ones, isolating the terminals is
    all that was missing. -/
theorem isNormal_isolateTerminals (g : Grammar) (start : Variable) (kept : Bool)
    (hg : g.EpsilonConfined start kept) (hunit : g.UnitFree) (hbinary : g.Binary) (v : Variable)
    (body : Body) (hb : body ∈ g.isolateTerminals.alternatives v) : IsNormal body := by
  rcases g.of_mem_alternatives_isolateTerminals v body hb with ⟨hold, hlen⟩ | hp | ⟨t, _, rfl⟩
  · -- The body is left with one symbol, which is no variable.
    have hmost := hbinary v body hold
    have hleast : body ≠ [] := by
      by_cases he : body = [.epsilon]
      · rw [he]
        exact List.cons_ne_nil _ _
      · exact (hg.markerFree v body hold he).1
    have hone : body.length = 1 := by
      have := List.length_pos_iff.mpr hleast
      omega
    rcases List.length_eq_one_iff.mp hone with ⟨s, rfl⟩
    cases s with
    | terminal t => exact Or.inl ⟨t, rfl⟩
    | nonterminal u =>
        have hnot := hunit v _ hold
        rw [Bool.eq_false_iff, Ne, Body.isUnit_iff] at hnot
        exact absurd ⟨u, rfl⟩ hnot
  · exact isNormal_of_isPair g body hp
  · exact Or.inl ⟨t, rfl⟩

/-- With markers confined, bodies of the right shape make up a normal form. -/
theorem inNormalForm_of_isNormal (g : Grammar) (start : Variable) (kept : Bool)
    (hg : g.EpsilonConfined start kept)
    (hshape : ∀ v, ∀ body ∈ g.alternatives v, IsNormal body) : g.inNormalForm start = true := by
  simp only [inNormalForm, List.all_eq_true]
  intro r hr body hb
  rw [← g.alternatives_of_mem_rules r hr] at hb
  rcases hshape r.1 body hb with ⟨t, rfl⟩ | ⟨u, w, rfl⟩
  · by_cases ht : t.isEpsilon = true
    · -- The only marker is that of a hidden start symbol.
      have hmark : t = .epsilon := beq_iff_eq.mp ht
      rw [hmark] at hb
      rcases (hg.mem_iff r.1).mp hb with ⟨hv, hk⟩
      have hhidden := (g.occursInBody_eq_false_iff start).mpr (hg.hidden hk)
      simp only [normalBody, hv, hhidden, beq_self_eq_true, Bool.not_false, Bool.and_self,
        Bool.or_true]
    · simp only [normalBody, Bool.eq_false_iff.mpr ht, Bool.not_false, Bool.true_or]
  · rfl

end Grammar

end Chomsky
