import Chomsky.Proofs.Distinct
import Chomsky.Proofs.Independence
import Chomsky.Proofs.Introduced
import Chomsky.Proofs.Limit

/-!
# Stages with Nothing to Do

A stage is the identity on a grammar that has nothing of what the stage removes.

Without unit productions there are no unit pairs and so nothing is inherited. Without
long bodies no chain variable is drawn, and without terminals in two-symbol bodies no
variable of a terminal. Both of these stages abbreviate, and a grammar that is another
one up to no links at all is that grammar.

The first stage takes more care. Where empty productions are confined, no variable is
nullable other than a start symbol with a retained `[ε]`, which is in no body. So no
body has a nullable occurrence, which keeps every limit, and its only variant is the
body itself. The retained `[ε]` is taken away with all other empty productions and
given back, which puts it behind the other alternatives. If it was there already,
nothing has changed. The first stage leaves such a grammar itself, and therefore it
does nothing on its own results, whatever the limit.

## Main definitions

* `Grammar.epsilonLast`: The empty production of a variable moved to the end.

## Theorems

* `eliminateUnits_eq_self`, `eliminateLong_eq_self`, `isolateTerminals_eq_self`:
  The later stages with nothing to do.
* `nullable_of_confined`: Only a retained empty production is left.
* `eliminateEpsilon_of_confined`: What the first stage does to such a grammar.
* `eliminateEpsilon_idempotent`: The first stage on its own results.
-/

namespace Chomsky

/-- A grammar that is another one up to no links is that grammar. -/
theorem Abbreviates.eq_of_abbreviates_nil {h g : Grammar} (H : Abbreviates h g [])
    (hdef : h.defined = g.defined) : h = g := by
  refine Grammar.eq_of_alternatives h g hdef fun v _ => ?_
  have hexpanded := H.expanded v List.not_mem_nil
  -- Without links there is nothing to expand.
  have hid : (h.alternatives v).map (Body.expand []) = h.alternatives v := List.map_id _
  rw [← hexpanded, hid]

theorem chainLengths_eq_zero (bodies : List Body) (h : ∀ body ∈ bodies, body.length ≤ 2) :
    chainLengths bodies = 0 := by
  induction bodies with
  | nil => rfl
  | cons body rest ih =>
      have hbody := h body List.mem_cons_self
      have hrest := ih fun b hb => h b (List.mem_cons_of_mem body hb)
      rw [chainLengths, hrest, Body.chainLength]
      omega

namespace Grammar

theorem eliminateUnits_eq_self (g : Grammar) (hg : g.UnitFree) : g.eliminateUnits = g := by
  refine eq_of_alternatives _ g g.defined_eliminateUnits fun v _ => ?_
  have hown : nonUnits (g.alternatives v) = g.alternatives v := by
    refine List.filter_eq_self.mpr fun body hb => ?_
    rw [hg v body hb]
    rfl
  have hnone : g.inherited g.unitPairs v = [] := by
    rw [List.eq_nil_iff_forall_not_mem]
    intro body hb
    rcases (g.mem_inherited v body).mp hb with ⟨u, hu, _⟩
    -- The first step of the chain is a unit production.
    rcases Relation.TransGen.head'_iff.mp hu with ⟨x, hstep, _⟩
    have hunit := hg v [.nonterminal x] hstep
    exact Bool.eq_false_iff.mp hunit ((Body.isUnit_iff _).mpr ⟨x, rfl⟩)
  rw [alternatives_eliminateUnits, hown, hnone]
  rfl

theorem eliminateLong_eq_self (g : Grammar) (hg : g.Binary) : g.eliminateLong = g := by
  have hshort : chainLengths g.bodies = 0 := by
    refine chainLengths_eq_zero g.bodies fun body hb => ?_
    rcases (g.mem_bodies_iff body).mp hb with ⟨v, hv⟩
    exact hg v body hv
  have hnames : g.chainNames = [] := List.length_eq_zero_iff.mp (g.length_chainNames.trans hshort)
  have hlinks : g.links = [] := List.map_eq_nil_iff.mp (g.map_fst_links.trans hnames)
  have H := g.abbreviates_eliminateLong
  rw [hlinks] at H
  refine H.eq_of_abbreviates_nil ?_
  simp [hnames]

theorem isolateTerminals_eq_self (g : Grammar)
    (hg : ∀ v, ∀ body ∈ g.alternatives v, body.length = 2 → ∀ t, .terminal t ∉ body) :
    g.isolateTerminals = g := by
  have hpaired : g.pairedTerminals = [] := by
    rw [List.eq_nil_iff_forall_not_mem]
    intro t ht
    rcases (g.mem_pairedTerminals_iff t).mp ht with ⟨body, hb, hlen, hin⟩
    rcases (g.mem_bodies_iff body).mp hb with ⟨v, hv⟩
    exact hg v body hv hlen t hin
  have htable : g.isolation = [] := List.map_eq_nil_iff.mp (g.map_fst_isolation.trans hpaired)
  have hnames : g.terminalNames = [] := by rw [← g.map_snd_isolation, htable, List.map_nil]
  have H := g.abbreviates_isolateTerminals
  rw [terminalLinks, htable, List.map_nil] at H
  refine H.eq_of_abbreviates_nil ?_
  simp [hnames]

end Grammar

namespace Body

/-- A body without markers and nullable variables has itself for its only variant. -/
theorem variants_eq_singleton (nullable : List Variable) (body : Body)
    (h : ∀ s ∈ body, s.isEpsilon = false ∧ s.isNullable nullable = false) :
    body.variants nullable = [body] := by
  induction body with
  | nil => rfl
  | cons s rest ih =>
      have hs := h s List.mem_cons_self
      have hrest := ih fun x hx => h x (List.mem_cons_of_mem s hx)
      rw [variants_of_not_isNullable nullable s rest hs.1 hs.2, hrest, List.map_singleton]

theorem nullableCount_eq_zero (nullable : List Variable) (body : Body)
    (h : ∀ s ∈ body, s.isNullable nullable = false) : body.nullableCount nullable = 0 := by
  rw [nullableCount, List.countP_eq_zero]
  intro s hs
  rw [h s hs]
  exact Bool.false_ne_true

end Body

theorem eraseDups_eq_self {α : Type} [BEq α] [LawfulBEq α] (xs : List α) (h : xs.Nodup) :
    xs.eraseDups = xs := by
  induction xs with
  | nil => rfl
  | cons x rest ih =>
      rw [List.nodup_cons] at h
      have hkeep : (rest.filter fun y => !y == x) = rest := by
        refine List.filter_eq_self.mpr fun y hy => ?_
        have hne : y ≠ x := fun e => h.1 (e ▸ hy)
        rw [beq_false_of_ne hne]
        rfl
      rw [List.eraseDups_cons, hkeep, ih h.2]

namespace Grammar

/-- The grammar with the empty production of a variable moved behind its other
    alternatives. -/
def epsilonLast (g : Grammar) (v : Variable) : Grammar :=
  g.define v ((g.alternatives v).erase [.epsilon] ++ [[.epsilon]])

theorem alternatives_epsilonLast (g : Grammar) (v u : Variable) :
    (g.epsilonLast v).alternatives u =
      if u = v then (g.alternatives v).erase [.epsilon] ++ [[.epsilon]] else g.alternatives u :=
  g.alternatives_update v u _

theorem defined_epsilonLast (g : Grammar) (v : Variable) (hv : v ∈ g.defined) :
    (g.epsilonLast v).defined = g.defined := by
  simp [epsilonLast, define, hv]

/-- An empty production that is at the end stays where it is. -/
theorem epsilonLast_eq_self (g : Grammar) (v : Variable) (others : List Body)
    (h : g.alternatives v = others ++ [[.epsilon]]) (hnone : [.epsilon] ∉ others) :
    g.epsilonLast v = g := by
  have hmem : [.epsilon] ∈ g.alternatives v := h ▸ List.mem_append_right others List.mem_cons_self
  have hv := g.mem_defined_of_mem_alternatives v _ hmem
  refine eq_of_alternatives _ g (g.defined_epsilonLast v hv) fun u _ => ?_
  rw [alternatives_epsilonLast]
  by_cases hu : u = v
  · rw [if_pos hu, hu, h, List.erase_append_right _ hnone, List.erase_cons_head,
      List.append_nil]
  · rw [if_neg hu]

namespace EpsilonConfined

variable {g : Grammar} {start : Variable} {kept : Bool}

/-- The only variable that can be nullable is a start symbol with a retained empty
    production. -/
theorem mem_nullable_iff_of_confined (hg : g.EpsilonConfined start kept) (v : Variable) :
    v ∈ g.nullable ↔ v = start ∧ kept = true := by
  constructor
  · intro hv
    -- The empty word is allowed to the retained start symbol and to nobody else.
    let I : Interpretation := fun u => {w | w = [] → u = start ∧ kept = true}
    have hI : g.Closed I := by
      intro u body hb _ w hw hnil
      by_cases heps : body = [.epsilon]
      · exact (hg.mem_iff u).mp (heps ▸ hb)
      · -- A body of another kind with the empty word would hold the start symbol.
        rw [hnil] at hw
        have hfree := hg.markerFree u body hb heps
        rcases List.exists_mem_of_ne_nil body hfree.1 with ⟨s, hs⟩
        have hknown : ∀ x, [] ∈ I x → x ∈ (if kept = true then [start] else []) := by
          intro x hx
          have hx' := hx rfl
          rw [if_pos hx'.2, hx'.1]
          exact List.mem_singleton_self start
        have hvan := Body.vanishes_of_nil_mem _ I hknown body hw s hs
        cases s with
        | terminal t =>
            rw [Symbol.vanishes_terminal] at hvan
            exact absurd ((hfree.2 _ hs).symm.trans hvan) Bool.false_ne_true
        | nonterminal x =>
            rw [Symbol.vanishes_nonterminal] at hvan
            by_cases hk : kept = true
            · rw [if_pos hk, List.mem_singleton] at hvan
              exact absurd (hvan ▸ hs) (hg.hidden hk u body hb)
            · rw [if_neg hk] at hvan
              exact absurd hvan List.not_mem_nil
    exact g.language_le_of_closed I hI v ((g.mem_nullable_iff v).mp hv) rfl
  · intro hv
    exact g.mem_nullable_of_vanishes v [.epsilon] ((hg.mem_iff v).mpr hv) rfl

/-- No variable is found twice, so this determines the list. -/
theorem nullable_of_confined (hg : g.EpsilonConfined start kept) :
    g.nullable = if kept = true then [start] else [] := by
  have hmem := hg.mem_nullable_iff_of_confined
  by_cases hk : kept = true
  · rw [if_pos hk]
    refine List.perm_singleton.mp ((List.perm_ext_iff_of_nodup g.nullableSoFar_nullable.nodup
      (List.nodup_singleton start)).mpr fun v => ?_)
    rw [hmem, List.mem_singleton, and_iff_left hk]
  · rw [if_neg hk, List.eq_nil_iff_forall_not_mem]
    exact fun v hv => hk ((hmem v).mp hv).2

theorem epsilon_mem_bodies_iff (hg : g.EpsilonConfined start kept) :
    [.epsilon] ∈ g.bodies ↔ kept = true := by
  rw [mem_bodies_iff]
  constructor
  · rintro ⟨v, hv⟩
    exact ((hg.mem_iff v).mp hv).2
  · exact fun hk => ⟨start, (hg.mem_iff start).mpr ⟨rfl, hk⟩⟩

/-- A retained start symbol is in no body, so no occurrence is nullable. -/
theorem not_isNullable (hg : g.EpsilonConfined start kept) (v : Variable) (body : Body)
    (hb : body ∈ g.alternatives v) (s : Symbol) (hs : s ∈ body) :
    s.isNullable g.nullable = false := by
  cases s with
  | terminal t => rfl
  | nonterminal x =>
      rw [Bool.eq_false_iff]
      intro hnull
      rcases (hg.mem_nullable_iff_of_confined x).mp (List.contains_iff_mem.mp hnull) with ⟨rfl, hk⟩
      exact hg.hidden hk v body hb hs

theorem excess_eq_none_of_confined (hg : g.EpsilonConfined start kept) (limit : Nat) :
    g.excess limit = none := by
  refine (g.excess_eq_none_iff limit).mpr fun body hb => ?_
  rcases (g.mem_bodies_iff body).mp hb with ⟨v, hv⟩
  rw [Body.nullableCount_eq_zero g.nullable body (hg.not_isNullable v body hv)]
  exact Nat.zero_le limit

/-- Every other body is its own variant, so the first stage takes away the retained
    empty production and does nothing else. -/
theorem alternatives_withoutEpsilon_of_confined (hg : g.EpsilonConfined start kept)
    (hdistinct : g.DistinctBodies) (v : Variable) :
    g.withoutEpsilon.alternatives v = nonEpsilons (g.alternatives v) := by
  have hsingle : ∀ body ∈ nonEpsilons (g.alternatives v),
      ((body.variants g.nullable).filter (!·.isEmpty)) = [body] := by
    intro body hb
    rcases (mem_nonEpsilons _ body).mp hb with ⟨hmem, hne⟩
    have hfree := hg.markerFree v body hmem hne
    rw [Body.variants_eq_singleton g.nullable body fun s hs =>
      ⟨hfree.2 s hs, hg.not_isNullable v body hmem s hs⟩]
    refine List.filter_cons_of_pos ?_
    rw [List.isEmpty_eq_false_iff.mpr hfree.1]
    rfl
  have hflat : ((nonEpsilons (g.alternatives v)).flatMap fun body =>
      (body.variants g.nullable).filter (!·.isEmpty)) = nonEpsilons (g.alternatives v) := by
    rw [List.flatMap_congr hsingle]
    exact List.flatMap_singleton' _
  rw [alternatives_withoutEpsilon, expand]
  exact (congrArg List.eraseDups hflat).trans (eraseDups_eq_self _ ((hdistinct v).filter _))

theorem withoutEpsilon_eq_self (hg : g.EpsilonConfined start kept) (hdistinct : g.DistinctBodies)
    (hk : kept = false) : g.withoutEpsilon = g := by
  refine eq_of_alternatives _ g g.defined_withoutEpsilon fun v _ => ?_
  rw [hg.alternatives_withoutEpsilon_of_confined hdistinct v]
  refine nonEpsilons_eq_self _ fun hmem => ?_
  have hkept := ((hg.mem_iff v).mp hmem).2
  exact Bool.false_ne_true (hk.symm.trans hkept)

/-- What was retained is taken away and given back, which puts it at the end. -/
theorem pushUnique_withoutEpsilon (hg : g.EpsilonConfined start kept)
    (hdistinct : g.DistinctBodies) (hk : kept = true) :
    g.withoutEpsilon.pushUnique start [.epsilon] = g.epsilonLast start := by
  have hmem : [.epsilon] ∈ g.alternatives start := (hg.mem_iff start).mpr ⟨rfl, hk⟩
  have hstart := g.mem_defined_of_mem_alternatives start _ hmem
  refine eq_of_alternatives _ _ ?_ fun v _ => ?_
  · simp [hstart, g.defined_epsilonLast start hstart]
  · rw [alternatives_pushUnique, alternatives_epsilonLast]
    by_cases hv : v = start
    · -- Taking away the only `[ε]` is taking away all of them.
      have herase : nonEpsilons (g.alternatives start) =
          (g.alternatives start).erase [.epsilon] := by
        rw [(hdistinct start).erase_eq_filter]
        refine List.filter_congr fun body _ => ?_
        rw [Bool.eq_iff_iff, Bool.not_eq_true', ← Bool.not_eq_true, Body.isEpsilon_iff, bne_iff_ne]
      have hgone : [.epsilon] ∉ (g.alternatives start).erase [.epsilon] :=
        (hdistinct start).not_mem_erase
      rw [if_pos hv, if_pos hv, hg.alternatives_withoutEpsilon_of_confined hdistinct, herase,
        pushBody, if_neg hgone]
    · rw [if_neg hv, if_neg hv, hg.alternatives_withoutEpsilon_of_confined hdistinct]
      exact nonEpsilons_eq_self _ fun hmem => hv ((hg.mem_iff v).mp hmem).1

/-- On a grammar whose empty productions are confined the first stage cannot fail. It
    leaves everything in place but a retained empty production, which moves to the
    end. -/
theorem eliminateEpsilon_of_confined (hg : g.EpsilonConfined start kept)
    (hdistinct : g.DistinctBodies) (keep : Bool) (hkeep : kept = true → keep = true)
    (limit : Nat) : g.eliminateEpsilon start keep limit =
      .ok (if kept = true then g.epsilonLast start else g) := by
  have hnull : [] ∈ g.language start ↔ kept = true := by
    rw [← mem_nullable_iff, hg.mem_nullable_iff_of_confined]
    exact and_iff_right rfl
  rw [eliminateEpsilon, hg.excess_eq_none_of_confined limit]
  by_cases hk : kept = true
  · have hhidden := (g.occursInBody_eq_false_iff start).mpr (hg.hidden hk)
    have hretains := (g.retainsEpsilon_iff start keep).mpr ⟨hkeep hk, hnull.mpr hk, hhidden⟩
    simp only [if_pos hretains, if_pos hk, hg.pushUnique_withoutEpsilon hdistinct hk]
  · have hretains : ¬ g.retainsEpsilon start keep = true := fun hr =>
      hk (hnull.mp ((g.retainsEpsilon_iff start keep).mp hr).2.1)
    have hsame := hg.withoutEpsilon_eq_self hdistinct (Bool.eq_false_iff.mpr hk)
    simp only [if_neg hretains, if_neg hk, hsame]

end EpsilonConfined

/-- On its own results the first stage succeeds whatever the limit, and it returns them
    as they are, a retained empty production in its place included. No variable is
    nullable any more but a start symbol that has it. -/
theorem eliminateEpsilon_idempotent (g r : Grammar) (start : Variable) (keep : Bool)
    (limit : Nat) (h : g.eliminateEpsilon start keep limit = .ok r) :
    (∀ limit', r.eliminateEpsilon start keep limit' = .ok r) ∧
      r.nullable = if [.epsilon] ∈ r.alternatives start then [start] else [] := by
  have hconfined := g.epsilonConfined_of_eliminateEpsilon r start keep limit h
  have hdistinct := g.distinctBodies_of_eliminateEpsilon r start keep limit h
  have halt := g.alternatives_of_eliminateEpsilon r start keep limit h start
  have hkeep : g.retainsEpsilon start keep = true → keep = true := fun hk =>
    ((g.retainsEpsilon_iff start keep).mp hk).1
  constructor
  · intro limit'
    rw [hconfined.eliminateEpsilon_of_confined hdistinct keep hkeep limit']
    by_cases hk : g.retainsEpsilon start keep = true
    · -- The empty production was pushed last, so moving it to the end does nothing.
      rw [if_pos ⟨rfl, hk⟩] at halt
      rw [if_pos hk, r.epsilonLast_eq_self start _ halt (g.epsilon_not_mem_withoutEpsilon start)]
    · rw [if_neg hk]
  · have hmem : [.epsilon] ∈ r.alternatives start ↔ g.retainsEpsilon start keep = true := by
      rw [hconfined.mem_iff, and_iff_right rfl]
    rw [hconfined.nullable_of_confined]
    exact if_congr hmem.symm rfl rfl

/-- The original exceeds the limit `0`, while what it becomes can be processed under
    it. -/
theorem eliminateEpsilon_expandedPair :
    optionalPair.eliminateEpsilon ⟨"S"⟩ true 2 = .ok expandedPair ∧
      optionalPair.eliminateEpsilon ⟨"S"⟩ true 0 = .error ⟨⟨"S"⟩, 2, 0⟩ ∧
      expandedPair.eliminateEpsilon ⟨"S"⟩ true 0 = .ok expandedPair ∧
      expandedPair.nullable = [⟨"S"⟩] := by
  have hstage : optionalPair.eliminateEpsilon ⟨"S"⟩ true 2 = .ok expandedPair := by rfl
  have h := eliminateEpsilon_idempotent optionalPair expandedPair ⟨"S"⟩ true 2 hstage
  exact ⟨hstage, by rfl, h.1 0, h.2.trans (if_pos (by decide))⟩

end Grammar

end Chomsky
