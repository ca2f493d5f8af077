import Chomsky.Proofs.Idle

/-!
# Converting a Converted Grammar

A conversion has nothing left to do on its own result, up to the place of one
body.

What a conversion leaves has bodies in normal form, none of them twice, and no empty
production but a retained one of the start symbol. Each stage has nothing to do on
such a grammar. The only thing that can happen is that the first stage takes the
retained `[ε]` away and gives it back, which puts it behind the other alternatives.
There it stays from then on.

## Main definitions

* `Grammar.Settled`: What a conversion leaves.

## Theorems

* `settled_final`: What a conversion leaves.
* `convertGrammar_of_settled`: Converting a settled grammar.
* `convertGrammar_final`: Converting a converted grammar.
-/

namespace Chomsky

namespace Grammar

/-- What a conversion leaves: bodies in normal form, none of them twice for a
    variable, and no empty production but that of the start symbol where it was
    `kept`. -/
structure Settled (g : Grammar) (start : Variable) (kept : Bool) : Prop where
  confined : g.EpsilonConfined start kept
  normal : ∀ v, ∀ body ∈ g.alternatives v, IsNormal body
  distinct : g.DistinctBodies

theorem isUnit_of_isNormal (body : Body) (h : IsNormal body) : body.isUnit = false := by
  rcases h with ⟨t, rfl⟩ | ⟨u, w, rfl⟩
  · rfl
  · rfl

namespace Settled

variable {g : Grammar} {start : Variable} {kept : Bool}

/-- A settled grammar has nothing for the later stages to do. -/
theorem later_eq_self (hg : g.Settled start kept) :
    g.eliminateUnits.eliminateLong.isolateTerminals = g := by
  have hunits : g.UnitFree := fun v body hb => isUnit_of_isNormal body (hg.normal v body hb)
  have hbinary : g.Binary := by
    intro v body hb
    rcases hg.normal v body hb with ⟨t, rfl⟩ | ⟨u, w, rfl⟩
    · exact Nat.le_succ 1
    · exact Nat.le_refl 2
  have hvariables : ∀ v, ∀ body ∈ g.alternatives v, body.length = 2 → ∀ t, .terminal t ∉ body := by
    intro v body hb hlen t ht
    rcases hg.normal v body hb with ⟨t', rfl⟩ | ⟨u, w, rfl⟩
    · rw [List.length_singleton] at hlen
      omega
    · simp only [List.mem_cons, reduceCtorEq, List.not_mem_nil, or_self] at ht
  rw [g.eliminateUnits_eq_self hunits, g.eliminateLong_eq_self hbinary,
    g.isolateTerminals_eq_self hvariables]

/-- Moving the empty production to the end leaves a grammar settled. -/
theorem settled_epsilonLast (hg : g.Settled start true) : (g.epsilonLast start).Settled start true := by
  have hperm : ∀ v, ((g.epsilonLast start).alternatives v).Perm (g.alternatives v) := by
    intro v
    rw [alternatives_epsilonLast]
    by_cases hv : v = start
    · have hmem : [.epsilon] ∈ g.alternatives start := (hg.confined.mem_iff start).mpr ⟨rfl, rfl⟩
      rw [if_pos hv, hv]
      exact (List.perm_append_singleton _ _).trans (List.perm_cons_erase hmem).symm
    · rw [if_neg hv]
  -- Nothing that makes a grammar settled is about the order of the alternatives.
  refine ⟨⟨fun v => ?_, fun v body hb => ?_, fun hk v body hb => ?_⟩, fun v body hb => ?_,
    fun v => ?_⟩
  · rw [(hperm v).count_eq, hg.confined.count]
  · exact hg.confined.markerFree v body ((hperm v).mem_iff.mp hb)
  · exact hg.confined.hidden hk v body ((hperm v).mem_iff.mp hb)
  · exact hg.normal v body ((hperm v).mem_iff.mp hb)
  · exact (hperm v).nodup_iff.mpr (hg.distinct v)

/-- The empty production is at the end after the first time. -/
theorem epsilonLast_epsilonLast (hg : g.Settled start true) :
    (g.epsilonLast start).epsilonLast start = g.epsilonLast start := by
  refine (g.epsilonLast start).epsilonLast_eq_self start ((g.alternatives start).erase [.epsilon])
    ?_ (hg.distinct start).not_mem_erase
  rw [alternatives_epsilonLast, if_pos rfl]

end Settled

end Grammar

open Grammar

theorem settled_final (o : Options) (g : Grammar) (c : Conversion)
    (h : convertGrammar o g = .ok c) :
    c.final.Settled o.start (g.retainsEpsilon o.start o.keepStartEpsilon) := by
  rcases final_of_convertGrammar o g c h with ⟨r, hr, hfinal⟩
  rcases exists_of_convertGrammar o g c h with ⟨b, hb, hunits, hbinary, hconfined⟩
  refine ⟨?_, ?_, ?_⟩
  · rw [hb]
    exact b.epsilonConfined_isolateTerminals _ _ hconfined
  · rw [hb]
    exact b.isNormal_isolateTerminals _ _ hconfined hunits hbinary
  · rw [hfinal]
    exact r.distinctBodies_later (g.distinctBodies_of_eliminateEpsilon r _ _ _ hr)

/-- A settled grammar is converted whatever the limit, and at most its empty
    production is moved. -/
theorem convertGrammar_of_settled (o : Options) (g : Grammar) (kept : Bool)
    (hg : g.Settled o.start kept) (hkeep : kept = true → o.keepStartEpsilon = true) :
    ∃ c, convertGrammar o g = .ok c ∧
      c.final = if kept = true then g.epsilonLast o.start else g := by
  have hfirst := hg.confined.eliminateEpsilon_of_confined hg.distinct o.keepStartEpsilon hkeep
    o.maxNullable
  rw [convertGrammar, runStages, hfirst]
  refine ⟨_, rfl, ?_⟩
  by_cases hk : kept = true
  · subst hk
    exact hg.settled_epsilonLast.later_eq_self
  · simp only [if_neg hk]
    exact hg.later_eq_self

/-- Converting a converted grammar again succeeds under every limit and introduces no
    variable. If the grammar has no empty production, it stays as it is, with its
    order. Otherwise the empty production is one of the start symbol, and it moves
    behind the other alternatives. Nothing changes when the result is converted yet
    again. -/
theorem convertGrammar_final (o : Options) (g : Grammar) (c : Conversion)
    (h : convertGrammar o g = .ok c) (limit : Nat) :
    ∃ c', convertGrammar { o with maxNullable := limit } c.final = .ok c' ∧
      c'.final.introduced c.final = [] ∧
      ([.epsilon] ∉ c.final.bodies → c'.final = c.final) ∧
      ([.epsilon] ∈ c.final.bodies → [.epsilon] ∈ c.final.alternatives o.start ∧
        c'.final = c.final.epsilonLast o.start ∧
        ∀ limit', ∃ c'', convertGrammar { o with maxNullable := limit' } c'.final = .ok c'' ∧
          c''.final = c'.final) := by
  let kept := g.retainsEpsilon o.start o.keepStartEpsilon
  have hsettled : c.final.Settled o.start kept := settled_final o g c h
  have hkeep : kept = true → o.keepStartEpsilon = true := fun hk =>
    ((g.retainsEpsilon_iff o.start o.keepStartEpsilon).mp hk).1
  have hmem := hsettled.confined.epsilon_mem_bodies_iff
  rcases convertGrammar_of_settled { o with maxNullable := limit } c.final kept hsettled hkeep with
    ⟨c', hc', hfinal⟩
  by_cases hk : kept = true
  · rw [if_pos hk] at hfinal
    rw [hk] at hsettled
    have hin := (hsettled.confined.mem_iff o.start).mpr ⟨rfl, rfl⟩
    have hstart := c.final.mem_defined_of_mem_alternatives o.start _ hin
    have hdef : c'.final.defined = c.final.defined := by
      rw [hfinal]
      exact c.final.defined_epsilonLast o.start hstart
    refine ⟨c', hc', ?_, fun hno => absurd (hmem.mpr hk) hno, fun _ => ⟨hin, hfinal, fun limit' => ?_⟩⟩
    · exact introduced_of_defined_append _ _ [] (by rw [hdef, List.append_nil])
    · -- The second result is settled as well, and its empty production is in place.
      have hagain : c'.final.Settled o.start true := by
        rw [hfinal]
        exact hsettled.settled_epsilonLast
      rcases convertGrammar_of_settled { o with maxNullable := limit' } c'.final true hagain
        (fun _ => hkeep hk) with ⟨c'', hc'', hfinal'⟩
      refine ⟨c'', hc'', ?_⟩
      rw [hfinal', if_pos rfl, hfinal]
      exact hsettled.epsilonLast_epsilonLast
  · rw [if_neg hk] at hfinal
    refine ⟨c', hc', ?_, fun _ => hfinal, fun hin => absurd (hmem.mp hin) hk⟩
    exact introduced_of_defined_append _ _ [] (by rw [hfinal, List.append_nil])

theorem convertGrammar_normalSurrounded :
    ∃ c', convertGrammar { keepStartEpsilon := true, maxNullable := 0 } normalSurrounded = .ok c' ∧
      c'.final = normalSurrounded.epsilonLast ⟨"S"⟩ ∧ c'.final ≠ normalSurrounded ∧
      ∃ c'', convertGrammar { keepStartEpsilon := true } c'.final = .ok c'' ∧
        c''.final = c'.final := by
  have hfirst : ∃ c, convertGrammar { keepStartEpsilon := true } surrounded = .ok c ∧
      c.final = normalSurrounded := ⟨_, rfl, rfl⟩
  rcases hfirst with ⟨c, hc, hnormal⟩
  rcases convertGrammar_final { keepStartEpsilon := true } surrounded c hc 0 with
    ⟨c', hc', _, _, hmoved⟩
  rw [hnormal] at hc' hmoved
  rcases hmoved (by decide) with ⟨_, hlast, hagain⟩
  exact ⟨c', hc', hlast, by rw [hlast]; decide, hagain 16⟩

end Chomsky
