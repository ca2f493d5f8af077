import Chomsky.Conversion
import Chomsky.Proofs.NormalForm

/-!
# The Conversion as a Whole

The stages put together. A conversion that does not fail ends with a grammar in
Chomsky normal form whose variables derive what they derived before, up to the
empty word.

Each stage has been dealt with on its own, so what is left is to see that they
fit. A variable that the grammar defines is still there when fresh names are
drawn, and so is never taken for one of the introduced variables. And the marker
that the first stage may leave behind passes through all the others.

## Theorems

* `stages_of_convertGrammar`: The stages behind the final grammar.
* `exists_of_convertGrammar`: What is known before terminals are isolated.
* `inNormalForm_convertGrammar`: A conversion ends in Chomsky normal form.
* `language_convertGrammar`: A conversion keeps the languages, up to the empty
  word.
-/

namespace Chomsky

open Grammar

/-- When a conversion does not fail, its first stage did not, and the other
    stages follow. -/
theorem stages_of_convertGrammar (o : Options) (g : Grammar) (c : Conversion)
    (h : convertGrammar o g = .ok c) :
    g.eliminateEpsilon o.start o.keepStartEpsilon o.maxNullable = .ok c.withoutEpsilon ∧
      c.withoutUnits = c.withoutEpsilon.eliminateUnits ∧
      c.binary = c.withoutUnits.eliminateLong ∧ c.final = c.binary.isolateTerminals := by
  rw [convertGrammar, runStages] at h
  cases hstage : g.eliminateEpsilon o.start o.keepStartEpsilon o.maxNullable with
  | error e =>
      rw [hstage] at h
      exact absurd h (by simp only [Except.map, reduceCtorEq, not_false_eq_true])
  | ok r =>
      rw [hstage] at h
      rw [← Except.ok.inj h]
      exact ⟨rfl, rfl, rfl, rfl⟩

theorem final_of_convertGrammar (o : Options) (g : Grammar) (c : Conversion)
    (h : convertGrammar o g = .ok c) :
    ∃ r, g.eliminateEpsilon o.start o.keepStartEpsilon o.maxNullable = .ok r ∧
      c.final = r.eliminateUnits.eliminateLong.isolateTerminals := by
  rcases stages_of_convertGrammar o g c h with ⟨hepsilon, hunits, hbinary, hfinal⟩
  exact ⟨c.withoutEpsilon, hepsilon, by rw [hfinal, hbinary, hunits]⟩

/-- Before its terminals are isolated, the grammar has the marker that was
    retained and no other, no units and no long bodies. -/
theorem exists_of_convertGrammar (o : Options) (g : Grammar) (c : Conversion)
    (h : convertGrammar o g = .ok c) :
    ∃ b : Grammar, c.final = b.isolateTerminals ∧ b.UnitFree ∧ b.Binary ∧
      b.EpsilonConfined o.start (g.retainsEpsilon o.start o.keepStartEpsilon) := by
  rcases final_of_convertGrammar o g c h with ⟨r, hr, hfinal⟩
  have hepsilon := g.epsilonConfined_of_eliminateEpsilon r _ _ _ hr
  have hunits := r.epsilonConfined_eliminateUnits _ _ hepsilon
  refine ⟨r.eliminateUnits.eliminateLong, hfinal, ?_, ?_, ?_⟩
  · exact r.eliminateUnits.unitFree_eliminateLong r.unitFree_eliminateUnits
  · exact r.eliminateUnits.binary_eliminateLong
  · exact r.eliminateUnits.epsilonConfined_eliminateLong _ _ hunits

/-- A conversion that does not fail ends in Chomsky normal form. Its bodies are
    single terminals and pairs of variables. One of them is `[ε]` exactly if that
    is asked for, the start symbol derives the empty word and no body of the
    grammar has the start symbol in it. Then `[ε]` is there once, as an
    alternative of the start symbol, which is still in no body. -/
theorem inNormalForm_convertGrammar (o : Options) (g : Grammar) (c : Conversion)
    (h : convertGrammar o g = .ok c) :
    c.final.inNormalForm o.start = true ∧
    (∀ v, ∀ body ∈ c.final.alternatives v,
      (∃ t, body = [.terminal t]) ∨ ∃ u w, body = [.nonterminal u, .nonterminal w]) ∧
    ([.epsilon] ∈ c.final.bodies ↔
      o.keepStartEpsilon = true ∧ [] ∈ g.language o.start ∧ g.occursInBody o.start = false) ∧
    ([.epsilon] ∈ c.final.bodies → c.final.bodies.count [.epsilon] = 1 ∧
      [.epsilon] ∈ c.final.alternatives o.start ∧ c.final.occursInBody o.start = false) := by
  rcases exists_of_convertGrammar o g c h with ⟨b, hfinal, hfree, hbinary, hb⟩
  have hconfined := b.epsilonConfined_isolateTerminals _ _ hb
  have hshape := b.isNormal_isolateTerminals _ _ hb hfree hbinary
  rw [← hfinal] at hconfined hshape
  have hcount := hconfined.count_bodies
  -- The body is there exactly if it was retained.
  have hmem : [.epsilon] ∈ c.final.bodies ↔
      g.retainsEpsilon o.start o.keepStartEpsilon = true := by
    rw [← List.count_pos_iff, hcount]
    split
    · next hk => exact iff_of_true Nat.one_pos hk
    · next hk => exact iff_of_false (Nat.lt_irrefl 0) hk
  refine ⟨inNormalForm_of_isNormal _ _ _ hconfined hshape, hshape, ?_, fun hin => ?_⟩
  · rw [hmem, g.retainsEpsilon_iff]
  · have hk := hmem.mp hin
    rw [hcount, if_pos hk]
    refine ⟨rfl, (hconfined.mem_iff o.start).mpr ⟨rfl, hk⟩, ?_⟩
    exact (c.final.occursInBody_eq_false_iff o.start).mpr (hconfined.hidden hk)

/-- The start symbol has a body of three symbols, a unit and the empty word. -/
def surrounded : Grammar := ofRules [
  (⟨"S"⟩, [[.nonterminal ⟨"A"⟩, .terminal ⟨"a"⟩, .nonterminal ⟨"A"⟩], [.nonterminal ⟨"A"⟩]]),
  (⟨"A"⟩, [[.terminal ⟨"b"⟩], [.epsilon]])]

/-- `surrounded` in normal form, with the empty production of `S`. -/
def normalSurrounded : Grammar := ofRules [
  (⟨"S"⟩, [[.nonterminal ⟨"N1"⟩, .nonterminal ⟨"A"⟩], [.nonterminal ⟨"A"⟩, .nonterminal ⟨"T1"⟩],
    [.nonterminal ⟨"T1"⟩, .nonterminal ⟨"A"⟩], [.terminal ⟨"a"⟩], [.epsilon],
    [.terminal ⟨"b"⟩]]),
  (⟨"A"⟩, [[.terminal ⟨"b"⟩]]),
  (⟨"N1"⟩, [[.nonterminal ⟨"A"⟩, .nonterminal ⟨"T1"⟩]]),
  (⟨"T1"⟩, [[.terminal ⟨"a"⟩]])]

theorem inNormalForm_normalSurrounded :
    ∃ c, convertGrammar { keepStartEpsilon := true } surrounded = .ok c ∧
      c.final = normalSurrounded ∧ normalSurrounded.inNormalForm ⟨"S"⟩ = true ∧
      normalSurrounded.bodies.count [.epsilon] = 1 := by
  refine ⟨_, rfl, rfl, ?_⟩
  have h := inNormalForm_convertGrammar { keepStartEpsilon := true } surrounded _ rfl
  have hnull : [] ∈ surrounded.language ⟨"S"⟩ := (mem_nullable_iff _ _).mp (by decide)
  have hhidden : surrounded.occursInBody ⟨"S"⟩ = false := by decide
  exact ⟨h.1, (h.2.2.2 (h.2.2.1.mpr ⟨rfl, hnull, hhidden⟩)).1⟩

/-- A variable that the grammar defines derives in the final grammar what it
    derived before, without the empty word. The start symbol keeps the empty word
    if that is asked for, it derives it and is in no body. -/
theorem language_convertGrammar (o : Options) (g : Grammar) (c : Conversion)
    (h : convertGrammar o g = .ok c) (v : Variable) (hv : v ∈ g.defined) (w : List Terminal) :
    w ∈ c.final.language v ↔ w ∈ g.language v ∧ (w ≠ [] ∨ v = o.start ∧
      o.keepStartEpsilon = true ∧ [] ∈ g.language o.start ∧ g.occursInBody o.start = false) := by
  rcases final_of_convertGrammar o g c h with ⟨r, hr, hfinal⟩
  -- The variable is in use when the chain variables are named, and so it is none of them.
  have hunits : v ∈ r.eliminateUnits.defined := by
    rw [r.defined_eliminateUnits]
    exact g.mem_defined_of_eliminateEpsilon r _ _ _ hr v hv
  have hchain : v ∉ r.eliminateUnits.chainNames := fun hn =>
    r.eliminateUnits.not_mem_mentioned_of_mem_chainNames v hn
      (r.eliminateUnits.mem_mentioned_of_mem_defined v hunits)
  -- The same goes for the variables of isolated terminals.
  have hlong : v ∈ r.eliminateUnits.eliminateLong.defined := by
    rw [r.eliminateUnits.defined_eliminateLong]
    exact List.mem_append_left _ hunits
  have hterminal : v ∉ r.eliminateUnits.eliminateLong.terminalNames := fun hn =>
    r.eliminateUnits.eliminateLong.not_mem_mentioned_of_mem_terminalNames v hn
      (r.eliminateUnits.eliminateLong.mem_mentioned_of_mem_defined v hlong)
  rw [hfinal, language_isolateTerminals_of_not_mem _ v hterminal,
    language_eliminateLong_of_not_mem _ v hchain, language_eliminateUnits_eq,
    g.mem_language_of_eliminateEpsilon r _ _ _ hr, retainsEpsilon_iff]

theorem language_normalSurrounded :
    ∃ c, convertGrammar { keepStartEpsilon := true } surrounded = .ok c ∧
      c.final = normalSurrounded ∧ [] ∈ normalSurrounded.language ⟨"S"⟩ ∧
      [] ∉ normalSurrounded.language ⟨"A"⟩ := by
  refine ⟨_, rfl, rfl, ?_⟩
  have h := language_convertGrammar { keepStartEpsilon := true } surrounded _ rfl
  have hnull : [] ∈ surrounded.language ⟨"S"⟩ := (mem_nullable_iff _ _).mp (by decide)
  have hhidden : surrounded.occursInBody ⟨"S"⟩ = false := by decide
  refine ⟨(h ⟨"S"⟩ (by decide) []).mpr ⟨hnull, Or.inr ⟨rfl, rfl, hnull, hhidden⟩⟩, fun hnil => ?_⟩
  rcases ((h ⟨"A"⟩ (by decide) []).mp hnil).2 with hne | ⟨hstart, _⟩
  · exact hne rfl
  · exact absurd hstart (by decide)

end Chomsky
