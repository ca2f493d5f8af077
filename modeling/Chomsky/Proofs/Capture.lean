import Chomsky.Proofs.Conversion
import Chomsky.Proofs.Introduced

/-!
# Captured Names

An introduced variable captures a name when the grammar that is converted already
uses that name for something else.

Each stage draws its fresh names against the grammar it is given, and a variable of
that grammar is safe, be it defined or not. Two things escape. The start symbol is
not part of the grammar, so a start symbol that the grammar does not mention is not
known to the later stages at all. And a variable that is not defined and makes up
whole bodies only is gone once unit productions are removed, which is before any
name is drawn. If such a variable is called like a chain variable or like that of
an isolated terminal, it is captured: it has alternatives in the final grammar
and derives words although it was never defined.

Everything else is safe. A variable with company, another symbol in the same body
that is no marker, stays in a body until the fresh names are drawn: keeping all
occurrences is one of the variants of the body, and that variant is no unit. So the
names at risk are known exactly.

## Main definitions

* `Grammar.accompanied`: A variable shares a body with another symbol.

## Theorems

* `occursInBody_withoutUnits`: Only variables with company are left in bodies.
* `occursInBody_of_abbreviates`: Abbreviating loses no variable.
* `introduced_final`: The variables that a conversion introduces.
* `not_accompanied_of_mem_introduced`: Variables with company are never captured.
* `capture_free_iff`: Exactly when no name is captured.
-/

namespace Chomsky

/-- What is in an expanded body was there before or is in a link. -/
theorem Body.mem_of_mem_expand (links : List Link) (body : Body) (s : Symbol)
    (h : s ∈ expand links body) : s ∈ body ∨ ∃ l ∈ links, s ∈ l.2 := by
  induction links with
  | nil => exact Or.inl h
  | cons l rest ih =>
      rw [expand, substitute] at h
      rcases List.mem_flatMap.mp h with ⟨x, hx, hs⟩
      unfold Symbol.substitute at hs
      split at hs
      · exact Or.inr ⟨l, List.mem_cons_self, hs⟩
      · rw [List.mem_singleton.mp hs]
        rcases ih (List.mem_singleton.mp hs ▸ hx) with hbody | ⟨m, hm, hsm⟩
        · exact Or.inl (List.mem_singleton.mp hs ▸ hbody)
        · exact Or.inr ⟨m, List.mem_cons_of_mem l hm, List.mem_singleton.mp hs ▸ hsm⟩

/-- Abbreviating a grammar loses none of the variables in its bodies. -/
theorem Abbreviates.occursInBody_of_abbreviates {h g : Grammar} {links : List Link}
    (H : Abbreviates h g links) (v : Variable) (hv : g.occursInBody v = true) :
    h.occursInBody v = true := by
  rcases (g.occursInBody_iff v).mp hv with ⟨u, body, hb, hmem⟩
  have hu : u ∉ links.map Prod.fst := fun hlink => by
    rcases List.mem_map.mp hlink with ⟨l, hl, rfl⟩
    rw [g.alternatives_of_not_mentioned l.1 (H.fresh l hl)] at hb
    exact List.not_mem_nil hb
  rw [← H.expanded u hu] at hb
  rcases List.mem_map.mp hb with ⟨short, hshort, rfl⟩
  rw [Grammar.occursInBody_iff]
  rcases Body.mem_of_mem_expand links short _ hmem with hin | ⟨l, hl, hin⟩
  · exact ⟨u, short, hshort, hin⟩
  · exact ⟨l.1, l.2, by rw [H.single l hl]; exact List.mem_singleton_self _, hin⟩

namespace Grammar

theorem mem_mentioned_iff (g : Grammar) (v : Variable) :
    v ∈ g.mentioned ↔ v ∈ g.defined ∨ g.occursInBody v = true := by
  constructor
  · intro h
    rcases List.mem_flatMap.mp h with ⟨r, hr, hv⟩
    rcases List.mem_cons.mp hv with rfl | hv
    · exact Or.inl (List.mem_map_of_mem hr)
    · rcases List.mem_filterMap.mp hv with ⟨s, hs, hsv⟩
      rcases List.mem_flatten.mp hs with ⟨body, hb, hin⟩
      cases s with
      | terminal t => exact absurd hsv (by simp only [Symbol.asVariable, reduceCtorEq,
          not_false_eq_true])
      | nonterminal u =>
          rw [← g.alternatives_of_mem_rules r hr] at hb
          exact Or.inr ((g.occursInBody_iff v).mpr ⟨r.1, body, hb, Option.some.inj hsv ▸ hin⟩)
  · intro h
    rcases h with hv | hv
    · exact g.mem_mentioned_of_mem_defined v hv
    · rcases (g.occursInBody_iff v).mp hv with ⟨u, body, hb, hin⟩
      exact g.mem_mentioned_of_mem_body body v ((g.mem_bodies_iff body).mpr ⟨u, hb⟩) hin

/-- Whether a variable is in a body that has another symbol, markers aside. -/
def accompanied (g : Grammar) (v : Variable) : Bool :=
  g.bodies.any fun body =>
    body.contains (.nonterminal v) && decide (2 ≤ (body.filter (!·.isEpsilon)).length)

theorem accompanied_iff (g : Grammar) (v : Variable) :
    g.accompanied v = true ↔ ∃ u, ∃ body ∈ g.alternatives u,
      .nonterminal v ∈ body ∧ 2 ≤ (body.filter (!·.isEpsilon)).length := by
  simp only [accompanied, List.any_eq_true, Bool.and_eq_true, List.contains_iff_mem,
    decide_eq_true_eq, mem_bodies_iff]
  constructor
  · intro h
    rcases h with ⟨body, ⟨u, hb⟩, hv, hlen⟩
    exact ⟨u, body, hb, hv, hlen⟩
  · intro h
    rcases h with ⟨u, body, hb, hv, hlen⟩
    exact ⟨body, ⟨u, hb⟩, hv, hlen⟩

/-- After the removal of empty and unit productions exactly the variables with
    company are left in bodies. -/
theorem occursInBody_withoutUnits (g r : Grammar) (start : Variable) (keep : Bool) (limit : Nat)
    (h : g.eliminateEpsilon start keep limit = .ok r) (v : Variable) :
    r.eliminateUnits.occursInBody v = true ↔ g.accompanied v = true := by
  have halt := g.alternatives_of_eliminateEpsilon r start keep limit h
  rw [occursInBody_iff, accompanied_iff]
  constructor
  · intro hx
    rcases hx with ⟨u, variant, hvar, hv⟩
    rcases (r.mem_alternatives_eliminateUnits u variant).mp hvar with ⟨hunit, x, _, hmem⟩
    rw [halt, List.mem_append] at hmem
    rcases hmem with hmem | hmem
    · rcases (g.mem_alternatives_withoutEpsilon x variant).mp hmem with ⟨_, body, hb, hbody⟩
      have hsub := Body.sublist_of_mem_variants g.nullable body variant hbody
      have htwo := variant.two_le_length_of_not_isUnit v hv hunit
      exact ⟨x, body, hb, (Body.of_mem_variants g.nullable body variant hbody _ hv).1,
        htwo.trans hsub.length_le⟩
    · -- The retained empty production has no variable in it.
      split at hmem
      · rw [List.mem_singleton.mp hmem, List.mem_singleton] at hv
        exact Symbol.noConfusion hv
      · exact absurd hmem List.not_mem_nil
  · intro hx
    rcases hx with ⟨u, body, hb, hv, hlen⟩
    have hkept : .nonterminal v ∈ body.filter (!·.isEpsilon) := List.mem_filter.mpr ⟨hv, rfl⟩
    have hvariant := (g.mem_alternatives_withoutEpsilon u _).mpr
      ⟨List.ne_nil_of_mem hkept, body, hb, Body.filter_mem_variants g.nullable body⟩
    refine ⟨u, _, (r.mem_alternatives_eliminateUnits u _).mpr ⟨Body.isUnit_of_two_le_length _ hlen,
      u, Relation.ReflTransGen.refl, ?_⟩, hkept⟩
    rw [halt]
    exact List.mem_append_left _ hvariant

end Grammar

open Grammar

/-- A conversion adds the chain variables and then those of isolated terminals. -/
theorem defined_final (o : Options) (g : Grammar) (c : Conversion)
    (h : convertGrammar o g = .ok c) :
    c.final.defined = g.defined ++ (c.withoutUnits.chainNames ++ c.binary.terminalNames) := by
  rcases stages_of_convertGrammar o g c h with ⟨hepsilon, hunits, hbinary, hfinal⟩
  rw [hfinal, defined_isolateTerminals, hbinary, defined_eliminateLong, hunits,
    defined_eliminateUnits, g.defined_of_eliminateEpsilon _ _ _ _ hepsilon, List.append_assoc]

theorem introduced_final (o : Options) (g : Grammar) (c : Conversion)
    (h : convertGrammar o g = .ok c) :
    c.final.introduced g = c.withoutUnits.chainNames ++ c.binary.terminalNames :=
  introduced_of_defined_append _ g _ (defined_final o g c h)

/-- No introduced variable is one that the grammar has together with another
    symbol in a body. -/
theorem not_accompanied_of_mem_introduced (o : Options) (g : Grammar) (c : Conversion)
    (h : convertGrammar o g = .ok c) (v : Variable) (hv : v ∈ c.final.introduced g) :
    g.accompanied v = false := by
  rcases stages_of_convertGrammar o g c h with ⟨hepsilon, hunits, hbinary, _⟩
  rw [Bool.eq_false_iff]
  intro hacc
  -- The variable is still in a body when names are drawn, for chains and for terminals.
  have hoccurs : c.withoutUnits.occursInBody v = true := by
    rw [hunits]
    exact (g.occursInBody_withoutUnits _ _ _ _ hepsilon v).mpr hacc
  have hlater : c.binary.occursInBody v = true := by
    rw [hbinary]
    exact c.withoutUnits.abbreviates_eliminateLong.occursInBody_of_abbreviates v hoccurs
  rw [introduced_final o g c h] at hv
  rcases List.mem_append.mp hv with hn | hn
  · exact c.withoutUnits.not_mem_mentioned_of_mem_chainNames v hn
      ((mem_mentioned_iff _ v).mpr (Or.inr hoccurs))
  · exact c.binary.not_mem_mentioned_of_mem_terminalNames v hn
      ((mem_mentioned_iff _ v).mpr (Or.inr hlater))

/-- The introduced variables differ from the start symbol and from all variables in
    bodies of the grammar, and a start symbol that is not defined derives nothing,
    exactly if none of the names that are drawn belongs to a variable of the
    following kind: it is the start symbol or in a body of the grammar, it is not
    defined, and it shares no body with another symbol. -/
theorem capture_free_iff (o : Options) (g : Grammar) (c : Conversion)
    (h : convertGrammar o g = .ok c) :
    ((∀ v ∈ c.final.introduced g, v ≠ o.start ∧ g.occursInBody v = false) ∧
      (o.start ∉ g.defined → c.final.language o.start = 0)) ↔
    ∀ v, v = o.start ∨ g.occursInBody v = true → v ∉ g.defined → g.accompanied v = false →
      v ∉ c.withoutUnits.chainNames ∧ v ∉ c.binary.terminalNames := by
  have hnames : ∀ v, v ∈ c.final.introduced g ↔
      v ∈ c.withoutUnits.chainNames ∨ v ∈ c.binary.terminalNames := fun v => by
    rw [introduced_final o g c h, List.mem_append]
  constructor
  · intro hfree v hused _ _
    rw [← not_or, ← hnames]
    intro hv
    rcases hfree.1 v hv with ⟨hstart, hbody⟩
    rcases hused with he | hoccurs
    · exact hstart he
    · exact Bool.false_ne_true (hbody.symm.trans hoccurs)
  · intro hsafe
    have hunused : ∀ v ∈ c.final.introduced g, ¬ (v = o.start ∨ g.occursInBody v = true) :=
      fun v hv hused => by
        have hnew := ((mem_introduced_iff c.final g v).mp hv).2
        have hdrawn := hsafe v hused hnew (not_accompanied_of_mem_introduced o g c h v hv)
        exact ((hnames v).mp hv).elim hdrawn.1 hdrawn.2
    refine ⟨fun v hv => ?_, fun hstart => ?_⟩
    · have := hunused v hv
      rw [not_or, Bool.not_eq_true] at this
      exact this
    · refine c.final.language_of_not_mem_defined o.start fun hdef => ?_
      exact hunused o.start ((mem_introduced_iff _ _ _).mpr ⟨hdef, hstart⟩) (Or.inl rfl)

/-- One body of three symbols. -/
def threeLetters : Grammar := ofRules [
  (⟨"S"⟩, [[.terminal ⟨"a"⟩, .terminal ⟨"b"⟩, .terminal ⟨"c"⟩]])]

theorem not_capture_free_threeLetters :
    ∃ c, convertGrammar { startSymbol := "N1" } threeLetters = .ok c ∧
      ¬ ((∀ v ∈ c.final.introduced threeLetters,
          v ≠ ⟨"N1"⟩ ∧ threeLetters.occursInBody v = false) ∧
        (⟨"N1"⟩ ∉ threeLetters.defined → c.final.language ⟨"N1"⟩ = 0)) := by
  refine ⟨_, rfl, fun hfree => ?_⟩
  have h := (capture_free_iff { startSymbol := "N1" } threeLetters _ rfl).mp hfree
  exact (h ⟨"N1"⟩ (Or.inl rfl) (by decide) (by decide)).1 (by decide)

/-- `threeLetters` in normal form. -/
def normalThreeLetters : Grammar := ofRules [
  (⟨"S"⟩, [[.nonterminal ⟨"N1"⟩, .nonterminal ⟨"T1"⟩]]),
  (⟨"N1"⟩, [[.nonterminal ⟨"T2"⟩, .nonterminal ⟨"T3"⟩]]),
  (⟨"T1"⟩, [[.terminal ⟨"c"⟩]]), (⟨"T2"⟩, [[.terminal ⟨"a"⟩]]), (⟨"T3"⟩, [[.terminal ⟨"b"⟩]])]

/-- `threeLetters` with a unit production to a variable that is not defined. -/
def loneTarget : Grammar := ofRules [
  (⟨"S"⟩, [[.nonterminal ⟨"N1"⟩], [.terminal ⟨"a"⟩, .terminal ⟨"b"⟩, .terminal ⟨"c"⟩]])]

/-- A start symbol that is not defined is captured and derives words. The target of
    a unit production is captured as well. -/
theorem captured_chain_name :
    (∃ c, convertGrammar { startSymbol := "N1" } threeLetters = .ok c ∧
      c.final = normalThreeLetters ∧ ⟨"N1"⟩ ∉ threeLetters.defined ∧
      ⟨"N1"⟩ ∈ c.final.introduced threeLetters ∧ [⟨"a"⟩, ⟨"b"⟩] ∈ c.final.language ⟨"N1"⟩) ∧
    ∃ c, convertGrammar {} loneTarget = .ok c ∧ c.final = normalThreeLetters ∧
      loneTarget.occursInBody ⟨"N1"⟩ = true ∧ ⟨"N1"⟩ ∈ c.final.introduced loneTarget := by
  have hword : [⟨"a"⟩, ⟨"b"⟩] ∈ normalThreeLetters.language ⟨"N1"⟩ := by
    have ha : normalThreeLetters.language ⟨"T2"⟩ = {[⟨"a"⟩]} := by
      rw [language_of_alternatives_eq _ _ [.terminal ⟨"a"⟩] rfl (List.cons_ne_nil _ _),
        Body.language_singleton]
      rfl
    have hb : normalThreeLetters.language ⟨"T3"⟩ = {[⟨"b"⟩]} := by
      rw [language_of_alternatives_eq _ _ [.terminal ⟨"b"⟩] rfl (List.cons_ne_nil _ _),
        Body.language_singleton]
      rfl
    rw [language_of_alternatives_eq _ _ [.nonterminal ⟨"T2"⟩, .nonterminal ⟨"T3"⟩] rfl
      (List.cons_ne_nil _ _), Body.language_cons, Body.language_singleton, Symbol.language,
      Symbol.language, ha, hb]
    exact Language.mem_mul.mpr ⟨[⟨"a"⟩], rfl, [⟨"b"⟩], rfl, rfl⟩
  exact ⟨⟨_, rfl, rfl, by decide, by decide, hword⟩, _, rfl, rfl, by decide, by decide⟩

end Chomsky
