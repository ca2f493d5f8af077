import Chomsky.Proofs.Conversion

/-!
# Alternatives Without Repetition

No variable of a converted grammar has the same body twice, even where the grammar
that was converted repeats itself.

Two stages see to it themselves. Removing empty productions lists every variant
once, and removing unit productions inherits only what a variable does not have
yet. The other two stages compare nothing. They write bodies anew, and two
different bodies might come out the same.

That they do not is once more a matter of abbreviations. Expansion takes the bodies
that such a stage leaves to those it was given, one by one and in order. If two of
them were the same, so would be the bodies they came from. An introduced variable
has a single body, which is no repetition either.

## Main definitions

* `DistinctBodies`: No variable has the same body twice.

## Theorems

* `distinctBodies_of_eliminateEpsilon`: The first stage lists no body twice.
* `distinctBodies_eliminateUnits`: Nothing is inherited twice.
* `distinctBodies_of_abbreviates`: Abbreviating makes no two bodies the same.
* `nodup_alternatives_convertGrammar`: A conversion leaves no repetition.
-/

namespace Chomsky

/-- No variable has the same body twice. -/
def Grammar.DistinctBodies (g : Grammar) : Prop := ∀ v, (g.alternatives v).Nodup

/-- Two bodies of a variable that are the same would expand to the same body. -/
theorem Abbreviates.distinctBodies_of_abbreviates {h g : Grammar} {links : List Link}
    (H : Abbreviates h g links) (hg : g.DistinctBodies) : h.DistinctBodies := by
  intro v
  by_cases hv : v ∈ links.map Prod.fst
  · rcases List.mem_map.mp hv with ⟨l, hl, rfl⟩
    rw [H.single l hl]
    exact List.nodup_singleton l.2
  · have hexpanded : ((h.alternatives v).map (Body.expand links)).Nodup := by
      rw [H.expanded v hv]
      exact hg v
    exact hexpanded.of_map _

namespace Grammar

theorem distinctBodies_withoutEpsilon (g : Grammar) : g.withoutEpsilon.DistinctBodies := by
  intro v
  rw [alternatives_withoutEpsilon]
  exact nodup_eraseDups _

/-- The first stage lists no body twice, the empty production that it may give
    back to the start symbol included. -/
theorem distinctBodies_of_eliminateEpsilon (g r : Grammar) (start : Variable) (keep : Bool)
    (limit : Nat) (h : g.eliminateEpsilon start keep limit = .ok r) : r.DistinctBodies := by
  intro v
  have hvariants := g.distinctBodies_withoutEpsilon v
  rw [g.alternatives_of_eliminateEpsilon r start keep limit h v]
  by_cases hk : v = start ∧ g.retainsEpsilon start keep = true
  · rw [if_pos hk]
    refine List.nodup_append.mpr ⟨hvariants, List.nodup_singleton _, fun body hb new hnew he => ?_⟩
    -- The empty production is no variant.
    rw [he, List.mem_singleton.mp hnew] at hb
    exact g.epsilon_not_mem_withoutEpsilon v hb
  · rw [if_neg hk, List.append_nil]
    exact hvariants

theorem distinctBodies_eliminateUnits (g : Grammar) (hg : g.DistinctBodies) :
    g.eliminateUnits.DistinctBodies := by
  intro v
  have hown : (nonUnits (g.alternatives v)).Nodup := (hg v).filter _
  rw [alternatives_eliminateUnits]
  exact nodup_pushNew _ _ hown

/-- From grammar to grammar through the later stages, bodies stay distinct. -/
theorem distinctBodies_later (g : Grammar) (hg : g.DistinctBodies) :
    g.eliminateUnits.eliminateLong.isolateTerminals.DistinctBodies := by
  have hunits := g.distinctBodies_eliminateUnits hg
  have hlong := g.eliminateUnits.abbreviates_eliminateLong.distinctBodies_of_abbreviates hunits
  exact Abbreviates.distinctBodies_of_abbreviates (abbreviates_isolateTerminals _) hlong

end Grammar

open Grammar

/-- No variable of the final grammar has the same body twice, whatever repetitions
    the grammar had that was converted. -/
theorem nodup_alternatives_convertGrammar (o : Options) (g : Grammar) (c : Conversion)
    (h : convertGrammar o g = .ok c) (v : Variable) : (c.final.alternatives v).Nodup := by
  rcases final_of_convertGrammar o g c h with ⟨r, hr, hfinal⟩
  have hfirst := g.distinctBodies_of_eliminateEpsilon r _ _ _ hr
  rw [hfinal]
  exact r.distinctBodies_later hfirst v

/-- A long body stands twice, a variable with an optional letter reaches itself, and
    the names of the first introduced variables are taken. -/
def repetitive : Grammar := ofRules [
  (⟨"S"⟩, [[.terminal ⟨"a"⟩, .nonterminal ⟨"A"⟩, .terminal ⟨"b"⟩],
    [.terminal ⟨"a"⟩, .nonterminal ⟨"A"⟩, .terminal ⟨"b"⟩],
    [.nonterminal ⟨"N1"⟩, .terminal ⟨"b"⟩], [.nonterminal ⟨"T1"⟩, .terminal ⟨"b"⟩]]),
  (⟨"A"⟩, [[.nonterminal ⟨"A"⟩], [.terminal ⟨"a"⟩, .epsilon], [.terminal ⟨"a"⟩], [.epsilon]])]

theorem nodup_alternatives_repetitive :
    ∃ c, convertGrammar {} repetitive = .ok c ∧ ¬ (repetitive.alternatives ⟨"S"⟩).Nodup ∧
      (c.final.alternatives ⟨"S"⟩).length = 4 ∧ (c.final.alternatives ⟨"S"⟩).Nodup := by
  refine ⟨_, rfl, by decide, by decide, ?_⟩
  exact nodup_alternatives_convertGrammar {} repetitive _ rfl ⟨"S"⟩

end Chomsky
