import Chomsky.Proofs.Unit
import Mathlib.Order.Lattice.Nat

/-!
# Unit Chains by Length

How far a variable is from another one along unit productions, and that the search for
unit pairs is nearest first.

A chain of unit productions is counted by its steps, and the distance of a pair is the
number of steps of its shortest chain of one or more. The worklist starts with the
pairs at distance one. A pair that is added while a pair at distance `k` is processed
has distance `k + 1`. It cannot be farther, as it prolongs a chain of `k` steps by one.
It cannot be nearer either, for a nearer pair would have been listed already: its
shortest chain without the last step belongs to a pair that is nearer than `k`, and
such a pair is before the cursor.

So at every point of the search the list is sorted by distance, and it reaches one step
beyond the pair under the cursor at most. These two facts are the invariant `Nearest`,
on top of the one that makes the list right.

What a variable inherits follows the order of its pairs. A body that several targets
have comes with the nearest of them, which gives a distance to the bodies as well, and
the alternatives of a variable are sorted by it. The own ones are at distance zero.

## Main definitions

* `Grammar.UnitChain`: A chain of unit productions with its number of steps.
* `Grammar.unitDistance`: The steps of the shortest chain of one or more.
* `Grammar.bodyDistance`: The steps to the nearest variable that has a body.
* `Worklist.Nearest`: The invariant of the search.

## Theorems

* `transGen_iff_unitChain`: Chains of one or more steps.
* `unitPairs_closure`: The unit pairs are the transitive closure.
* `isLeast_unitDistance`: A unit pair has a shortest chain.
* `mem_pairs_of_unitChain`: Pairs nearer than the cursor are listed.
* `nearest_step`: Processing a pair keeps the invariant.
* `sorted_alternatives_eliminateUnits`: What is inherited comes nearest first.
* `unitPairs_nearest_first`: Pairs and inherited bodies are listed nearest first.
-/

namespace Chomsky

/-- In a list sorted by a distance, nothing at a later place is nearer. -/
theorem le_of_sorted {α : Type} (distance : α → Nat) (xs : List α)
    (hxs : xs.Pairwise fun x y => distance x ≤ distance y) (i j : Nat) (x y : α)
    (hx : xs[i]? = some x) (hy : xs[j]? = some y) (hij : i ≤ j) : distance x ≤ distance y := by
  rcases List.getElem?_eq_some_iff.mp hx with ⟨hi, rfl⟩
  rcases List.getElem?_eq_some_iff.mp hy with ⟨hj, rfl⟩
  rcases Nat.eq_or_lt_of_le hij with rfl | hlt
  · exact Nat.le_refl _
  · exact List.pairwise_iff_getElem.mp hxs i j hi hj hlt

section PushNew

variable {α β : Type} [BEq α] [LawfulBEq α]

/-- What was at a place stays there. -/
theorem getElem?_pushNew (xs ys : List α) (i : Nat) (x : α) (h : xs[i]? = some x) :
    (pushNew xs ys)[i]? = some x := by
  rcases exists_pushNew_eq_append xs ys with ⟨added, heq, _⟩
  rw [heq, List.getElem?_append_left (List.getElem?_eq_some_iff.mp h).1]
  exact h

/-- A list sorted by a distance stays sorted when everything new is at one distance that
    nothing in the list exceeds. -/
theorem pairwise_pushNew (distance : α → Nat) (k : Nat) (xs ys : List α)
    (hxs : xs.Pairwise fun x y => distance x ≤ distance y) (hold : ∀ x ∈ xs, distance x ≤ k)
    (hnew : ∀ y ∈ ys, y ∉ xs → distance y = k) :
    (pushNew xs ys).Pairwise fun x y => distance x ≤ distance y := by
  rcases exists_pushNew_eq_append xs ys with ⟨added, heq, hadded⟩
  have hk : ∀ y ∈ added, distance y = k := fun y hy => hnew y (hadded y hy).1 (hadded y hy).2
  rw [heq, List.pairwise_append]
  refine ⟨hxs, ?_, fun x hx y hy => ?_⟩
  · refine List.pairwise_of_forall_mem_list fun x hx y hy => ?_
    rw [hk x hx, hk y hy]
  · rw [hk y hy]
    exact hold x hx

/-- When several sources offer elements, nearer sources first, and the distance of an
    element that is not there yet is that of the nearest source that has it, then the
    elements are added nearest first. -/
theorem pairwise_pushNew_flatMap (distance : α → Nat) (away : β → Nat) (offers : β → List α)
    (sources : List β) (xs : List α) (hsorted : sources.Pairwise fun s t => away s ≤ away t)
    (hle : ∀ s ∈ sources, ∀ y ∈ offers s, distance y ≤ away s)
    (hnearest : ∀ s ∈ sources, ∀ y ∈ offers s, y ∉ xs →
      ∃ t ∈ sources, y ∈ offers t ∧ away t ≤ distance y)
    (hxs : xs.Pairwise fun x y => distance x ≤ distance y)
    (hold : ∀ x ∈ xs, ∀ s ∈ sources, distance x ≤ away s) :
    (pushNew xs (sources.flatMap offers)).Pairwise fun x y => distance x ≤ distance y := by
  induction sources generalizing xs with
  | nil => exact hxs
  | cons s rest ih =>
      rw [List.pairwise_cons] at hsorted
      rw [List.flatMap_cons, pushNew_append]
      -- No source behind `s` is nearer, so what `s` adds is as far away as `s`.
      have hnew : ∀ y ∈ offers s, y ∉ xs → distance y = away s := by
        intro y hy hyxs
        rcases hnearest s List.mem_cons_self y hy hyxs with ⟨t, ht, _, htle⟩
        have hst : away s ≤ away t := by
          rcases List.mem_cons.mp ht with rfl | ht
          · exact Nat.le_refl _
          · exact hsorted.1 t ht
        exact Nat.le_antisymm (hle s List.mem_cons_self y hy) (Nat.le_trans hst htle)
      refine ih (pushNew xs (offers s)) hsorted.2 (fun t ht => hle t (List.mem_cons_of_mem s ht))
        (fun t ht y hy hyxs => ?_) ?_ (fun x hx t ht => ?_)
      · -- What `s` offers is there now, so the nearest source of anything else is behind `s`.
        rw [mem_pushNew, not_or] at hyxs
        rcases hnearest t (List.mem_cons_of_mem s ht) y hy hyxs.1 with ⟨u, hu, hyu, hule⟩
        rcases List.mem_cons.mp hu with rfl | hu
        · exact absurd hyu hyxs.2
        · exact ⟨u, hu, hyu, hule⟩
      · exact pairwise_pushNew distance (away s) xs (offers s) hxs
          (fun x hx => hold x hx s List.mem_cons_self) hnew
      · rcases (mem_pushNew xs (offers s) x).mp hx with hx | hx
        · exact hold x hx t (List.mem_cons_of_mem s ht)
        · exact Nat.le_trans (hle s List.mem_cons_self x hx) (hsorted.1 t ht)

end PushNew

namespace Grammar

/-- A chain of unit productions, with the number of its steps. -/
inductive UnitChain (g : Grammar) : Nat → Variable → Variable → Prop where
  | refl (a : Variable) : UnitChain g 0 a a
  | tail (n : Nat) (a b c : Variable) :
      UnitChain g n a b → g.UnitStep b c → UnitChain g (n + 1) a c

theorem transGen_iff_unitChain (g : Grammar) (a b : Variable) :
    Relation.TransGen g.UnitStep a b ↔ ∃ n, 1 ≤ n ∧ g.UnitChain n a b := by
  constructor
  · intro h
    induction h with
    | single hstep => exact ⟨1, Nat.le_refl 1, .tail 0 a a _ (.refl a) hstep⟩
    | tail _ hstep ih =>
        rcases ih with ⟨n, hn, hchain⟩
        exact ⟨n + 1, Nat.le_add_left 1 n, .tail n a _ _ hchain hstep⟩
  · rintro ⟨n, hn, h⟩
    induction h with
    | refl a => exact absurd hn (Nat.not_succ_le_zero 0)
    | tail n a b c hchain hstep ih =>
        rcases Nat.eq_zero_or_pos n with rfl | hpos
        · -- The chain in front of the last step has no steps.
          cases hchain
          exact Relation.TransGen.single hstep
        · exact (ih hpos).tail hstep

theorem mem_unitPairs_iff_unitChain (g : Grammar) (a b : Variable) :
    (a, b) ∈ g.unitPairs ↔ ∃ n, 1 ≤ n ∧ g.UnitChain n a b := by
  rw [mem_unitPairs_iff, transGen_iff_unitChain]

/-- The unit pairs are the transitive closure of the unit productions. A pair is listed
    exactly if a chain of one or more of them leads from its first variable to its
    second one, which may be the same or have no rule, and no pair is listed twice. -/
theorem unitPairs_closure (g : Grammar) :
    (∀ a b, (a, b) ∈ g.unitPairs ↔ Relation.TransGen g.UnitStep a b) ∧
      (∀ a b, (a, b) ∈ g.unitPairs ↔ ∃ n, 1 ≤ n ∧ g.UnitChain n a b) ∧ g.unitPairs.Nodup := by
  refine ⟨g.mem_unitPairs_iff, g.mem_unitPairs_iff_unitChain, ?_⟩
  -- A pair that is listed already is never added.
  exact g.invariant_unitPairs.nodup

/-- The number of steps of the shortest chain of one or more unit productions that joins
    a pair. -/
noncomputable def unitDistance (g : Grammar) (p : Variable × Variable) : Nat :=
  sInf {n | 1 ≤ n ∧ g.UnitChain n p.1 p.2}

theorem unitDistance_le (g : Grammar) (n : Nat) (a b : Variable) (hn : 1 ≤ n)
    (h : g.UnitChain n a b) : g.unitDistance (a, b) ≤ n :=
  Nat.sInf_le ⟨hn, h⟩

theorem isLeast_unitDistance (g : Grammar) (p : Variable × Variable)
    (h : Relation.TransGen g.UnitStep p.1 p.2) :
    IsLeast {n | 1 ≤ n ∧ g.UnitChain n p.1 p.2} (g.unitDistance p) :=
  ⟨Nat.sInf_mem ((g.transGen_iff_unitChain p.1 p.2).mp h), fun _ hn => Nat.sInf_le hn⟩

theorem unitDistance_of_unitStep (g : Grammar) (a b : Variable) (h : g.UnitStep a b) :
    g.unitDistance (a, b) = 1 := by
  have hle := g.unitDistance_le 1 a b (Nat.le_refl 1) (.tail 0 a a b (.refl a) h)
  exact Nat.le_antisymm hle (g.isLeast_unitDistance (a, b) (Relation.TransGen.single h)).1.1

/-- The number of steps of the shortest chain, possibly none, to a variable that has a
    body among its alternatives. -/
noncomputable def bodyDistance (g : Grammar) (v : Variable) (body : Body) : Nat :=
  sInf {n | ∃ u, g.UnitChain n v u ∧ body ∈ g.alternatives u}

end Grammar

namespace Worklist

/-- What the order of the worklist satisfies at every point of the search. -/
structure Nearest (g : Grammar) (w : Worklist) : Prop where
  invariant : Invariant g w
  sorted : w.pairs.Pairwise fun p q => g.unitDistance p ≤ g.unitDistance q
  within : ∀ p, w.pairs[w.cursor]? = some p →
    ∀ q ∈ w.pairs, g.unitDistance q ≤ g.unitDistance p + 1

theorem nearest_start (g : Grammar) : Nearest g ⟨g.directPairs, 0⟩ := by
  -- At the start all pairs are at the same distance.
  have hone : ∀ p ∈ g.directPairs, g.unitDistance p = 1 := fun p hp =>
    g.unitDistance_of_unitStep p.1 p.2 ((g.mem_directPairs p.1 p.2).mp hp)
  refine ⟨invariant_start g, ?_, fun p hp q hq => ?_⟩
  · refine List.pairwise_of_forall_mem_list fun p hp q hq => ?_
    rw [hone p hp, hone q hq]
  · rw [hone q hq]
    exact Nat.le_add_left 1 _

/-- A pair with a chain that is no longer than the pair under the cursor is far is
    listed already. -/
theorem mem_pairs_of_unitChain (g : Grammar) (w : Worklist) (h : Nearest g w)
    (p : Variable × Variable) (hp : w.pairs[w.cursor]? = some p) (n : Nat) (a b : Variable)
    (hchain : g.UnitChain n a b) (hpos : 1 ≤ n) (hn : n ≤ g.unitDistance p) :
    (a, b) ∈ w.pairs := by
  induction hchain with
  | refl a => exact absurd hpos (Nat.not_succ_le_zero 0)
  | tail n a b c hchain hstep ih =>
      rcases Nat.eq_zero_or_pos n with rfl | hlt
      · cases hchain
        exact h.invariant.direct a c hstep
      · -- The chain without its last step has a pair, which is nearer than `p`.
        rcases List.mem_iff_getElem?.mp (ih hlt (by omega)) with ⟨i, hi⟩
        have hnear := g.unitDistance_le n a b hlt hchain
        have hbefore : i < w.cursor := by
          by_contra hge
          have hle := le_of_sorted g.unitDistance w.pairs h.sorted w.cursor i p (a, b) hp hi
            (Nat.le_of_not_lt hge)
          omega
        exact h.invariant.processed i (a, b) hbefore hi c hstep

/-- A pair that is new when the pair under the cursor is processed is one step farther. -/
theorem unitDistance_of_new (g : Grammar) (w : Worklist) (h : Nearest g w)
    (p : Variable × Variable) (hp : w.pairs[w.cursor]? = some p) (c : Variable)
    (hstep : g.UnitStep p.2 c) (hnew : (p.1, c) ∉ w.pairs) :
    g.unitDistance (p.1, c) = g.unitDistance p + 1 := by
  have hleast := g.isLeast_unitDistance p (h.invariant.chain p (List.mem_of_getElem? hp))
  have hlonger := Grammar.UnitChain.tail _ _ _ _ hleast.1.2 hstep
  have hle := g.unitDistance_le _ p.1 c (Nat.le_add_left 1 _) hlonger
  have hchain := (g.isLeast_unitDistance (p.1, c)
    ((h.invariant.chain p (List.mem_of_getElem? hp)).tail hstep)).1
  -- Were the new pair any nearer, it would not be new.
  by_contra hne
  exact hnew (mem_pairs_of_unitChain g w h p hp _ p.1 c hchain.2 hchain.1 (by omega))

theorem nearest_step (g : Grammar) (w next : Worklist) (h : Nearest g w)
    (hstep : w.step g = some next) : Nearest g next := by
  have hinvariant := invariant_step g w next h.invariant hstep
  rcases (step_eq_some_iff g w next).mp hstep with ⟨p, hp, rfl⟩
  have hadded : ∀ q ∈ (g.unitTargets p.2).map (p.1, ·), q ∉ w.pairs →
      g.unitDistance q = g.unitDistance p + 1 := by
    intro q hq hnew
    rcases List.mem_map.mp hq with ⟨c, hc, rfl⟩
    exact unitDistance_of_new g w h p hp c ((g.mem_unitTargets p.2 c).mp hc) hnew
  have hsorted := pairwise_pushNew g.unitDistance (g.unitDistance p + 1) w.pairs
    ((g.unitTargets p.2).map (p.1, ·)) h.sorted (h.within p hp) hadded
  refine ⟨hinvariant, hsorted, fun p' hp' q hq => ?_⟩
  -- The next pair is not nearer than `p`, and no pair is farther than what `p` has added.
  have hnext : g.unitDistance p ≤ g.unitDistance p' := le_of_sorted g.unitDistance _ hsorted
    w.cursor (w.cursor + 1) p p' (getElem?_pushNew _ _ _ p hp) hp' (Nat.le_succ _)
  have hfar : g.unitDistance q ≤ g.unitDistance p + 1 := by
    by_cases hold : q ∈ w.pairs
    · exact h.within p hp q hold
    · exact Nat.le_of_eq (hadded q (((mem_pushNew _ _ q).mp hq).resolve_left hold) hold)
  omega

theorem nearest_run (g : Grammar) (steps : Nat) (w : Worklist) (h : Nearest g w) :
    Nearest g (run g steps w) := by
  induction steps generalizing w with
  | zero => exact h
  | succ n ih =>
      rw [run]
      cases hstep : w.step g with
      | none => exact h
      | some next => exact ih next (nearest_step g w next h hstep)

end Worklist

namespace Grammar

theorem isLeast_unitDistance_of_mem (g : Grammar) (p : Variable × Variable)
    (hp : p ∈ g.unitPairs) :
    IsLeast {n | 1 ≤ n ∧ g.UnitChain n p.1 p.2} (g.unitDistance p) :=
  g.isLeast_unitDistance p ((g.mem_unitPairs_iff p.1 p.2).mp hp)

theorem sorted_unitPairs (g : Grammar) :
    g.unitPairs.Pairwise fun p q => g.unitDistance p ≤ g.unitDistance q :=
  (Worklist.nearest_run g g.unitPairBound _ (Worklist.nearest_start g)).sorted

/-- A body that a variable has after its unit productions are removed is that of a
    variable at the end of a shortest chain. -/
theorem isLeast_bodyDistance (g : Grammar) (v : Variable) (body : Body)
    (h : body ∈ g.eliminateUnits.alternatives v) :
    IsLeast {n | ∃ u, g.UnitChain n v u ∧ body ∈ g.alternatives u} (g.bodyDistance v body) := by
  refine ⟨Nat.sInf_mem ?_, fun _ hn => Nat.sInf_le hn⟩
  rcases ((g.mem_alternatives_eliminateUnits v body).mp h).2 with ⟨u, hu, hb⟩
  rcases Relation.reflTransGen_iff_eq_or_transGen.mp hu with rfl | hu
  · exact ⟨0, u, .refl u, hb⟩
  · rcases (g.transGen_iff_unitChain v u).mp hu with ⟨n, _, hchain⟩
    exact ⟨n, u, hchain, hb⟩

theorem bodyDistance_le (g : Grammar) (n : Nat) (v u : Variable) (body : Body)
    (h : g.UnitChain n v u) (hb : body ∈ g.alternatives u) : g.bodyDistance v body ≤ n :=
  Nat.sInf_le ⟨u, h, hb⟩

theorem bodyDistance_of_own (g : Grammar) (v : Variable) (body : Body)
    (h : body ∈ g.alternatives v) : g.bodyDistance v body = 0 :=
  Nat.le_zero.mp (g.bodyDistance_le 0 v v body (.refl v) h)

/-- The nearest variable with a body that a variable does not have itself is at the end of
    a unit pair. -/
theorem exists_nearest_pair (g : Grammar) (v : Variable) (body : Body)
    (h : body ∈ g.eliminateUnits.alternatives v) (hown : body ∉ g.alternatives v) :
    ∃ u, (v, u) ∈ g.unitPairs ∧ body ∈ g.alternatives u ∧
      g.unitDistance (v, u) ≤ g.bodyDistance v body := by
  rcases (g.isLeast_bodyDistance v body h).1 with ⟨u, hchain, hb⟩
  have hpos : 1 ≤ g.bodyDistance v body := by
    by_contra hzero
    -- A chain without steps would end where it begins.
    rw [Nat.lt_one_iff.mp (Nat.lt_of_not_le hzero)] at hchain
    cases hchain
    exact hown hb
  have hpair := (g.mem_unitPairs_iff_unitChain v u).mpr ⟨_, hpos, hchain⟩
  exact ⟨u, hpair, hb, g.unitDistance_le _ v u hpos hchain⟩

/-- The bodies of a variable come nearest first, those of its own in front. -/
theorem sorted_alternatives_eliminateUnits (g : Grammar) (v : Variable) :
    (g.eliminateUnits.alternatives v).Pairwise fun b c =>
      g.bodyDistance v b ≤ g.bodyDistance v c := by
  have hown : ∀ body ∈ nonUnits (g.alternatives v), g.bodyDistance v body = 0 :=
    fun body hb => g.bodyDistance_of_own v body ((mem_nonUnits _ body).mp hb).1
  have hpairs : ∀ p ∈ g.unitPairs.filter (·.1 == v), p ∈ g.unitPairs ∧ p.1 = v := fun p hp => by
    rwa [List.mem_filter, beq_iff_eq] at hp
  -- The sources are the unit pairs of `v`, each offering the bodies at its end.
  rw [alternatives_eliminateUnits]
  refine pairwise_pushNew_flatMap (g.bodyDistance v) g.unitDistance
    (fun p => nonUnits (g.alternatives p.2)) (g.unitPairs.filter (·.1 == v))
    (nonUnits (g.alternatives v)) (g.sorted_unitPairs.filter _) ?_ ?_ ?_ ?_
  · rintro p hp body hb
    rcases hpairs p hp with ⟨hmem, rfl⟩
    have hchain := (g.isLeast_unitDistance_of_mem p hmem).1.2
    exact g.bodyDistance_le _ p.1 p.2 body hchain ((mem_nonUnits _ body).mp hb).1
  · intro p hp body hb hnew
    rcases hpairs p hp with ⟨hmem, rfl⟩
    rcases (mem_nonUnits _ body).mp hb with ⟨hbody, hunit⟩
    have hnot : body ∉ g.alternatives p.1 := fun h => hnew ((mem_nonUnits _ body).mpr ⟨h, hunit⟩)
    have hafter : body ∈ g.eliminateUnits.alternatives p.1 :=
      (g.mem_alternatives_eliminateUnits p.1 body).mpr
        ⟨hunit, p.2, ((g.mem_unitPairs_iff p.1 p.2).mp hmem).to_reflTransGen, hbody⟩
    rcases g.exists_nearest_pair p.1 body hafter hnot with ⟨u, hu, hbu, hle⟩
    exact ⟨(p.1, u), List.mem_filter.mpr ⟨hu, beq_self_eq_true _⟩,
      (mem_nonUnits _ body).mpr ⟨hbu, hunit⟩, hle⟩
  · refine List.pairwise_of_forall_mem_list fun b hb c hc => ?_
    rw [hown b hb, hown c hc]
  · intro body hb p _
    rw [hown body hb]
    exact Nat.zero_le _

/-- Along the unit pairs the length of the shortest chain never decreases. A variable
    inherits in that order: along its alternatives, its own in front, the length of the
    shortest chain to a variable with that body never decreases either. Both lengths are
    those of chains that exist. -/
theorem unitPairs_nearest_first (g : Grammar) :
    (∀ p ∈ g.unitPairs, IsLeast {n | 1 ≤ n ∧ g.UnitChain n p.1 p.2} (g.unitDistance p)) ∧
    (g.unitPairs.Pairwise fun p q => g.unitDistance p ≤ g.unitDistance q) ∧
    ∀ v, (∀ body ∈ g.eliminateUnits.alternatives v,
        IsLeast {n | ∃ u, g.UnitChain n v u ∧ body ∈ g.alternatives u} (g.bodyDistance v body)) ∧
      (g.eliminateUnits.alternatives v).Pairwise fun b c =>
        g.bodyDistance v b ≤ g.bodyDistance v c := by
  refine ⟨g.isLeast_unitDistance_of_mem, g.sorted_unitPairs, fun v => ⟨?_, ?_⟩⟩
  · exact g.isLeast_bodyDistance v
  · exact g.sorted_alternatives_eliminateUnits v

/-- `C` is one step from `S`, and three steps on the way over `A` and `B`. -/
def roundabout : Grammar := ofRules [
  (⟨"S"⟩, [[.nonterminal ⟨"A"⟩], [.nonterminal ⟨"C"⟩], [.terminal ⟨"s"⟩]]),
  (⟨"A"⟩, [[.nonterminal ⟨"B"⟩], [.terminal ⟨"a"⟩]]),
  (⟨"B"⟩, [[.nonterminal ⟨"C"⟩], [.terminal ⟨"b"⟩]]),
  (⟨"C"⟩, [[.nonterminal ⟨"D"⟩], [.terminal ⟨"c"⟩]]),
  (⟨"D"⟩, [[.terminal ⟨"d"⟩]])]

theorem roundabout_nearest_first :
    (⟨"S"⟩, ⟨"D"⟩) ∈ roundabout.unitPairs ∧
      IsLeast {n | 1 ≤ n ∧ roundabout.UnitChain n ⟨"S"⟩ ⟨"D"⟩}
        (roundabout.unitDistance (⟨"S"⟩, ⟨"D"⟩)) ∧
      roundabout.eliminateUnits.alternatives ⟨"S"⟩ = [[.terminal ⟨"s"⟩], [.terminal ⟨"a"⟩],
        [.terminal ⟨"c"⟩], [.terminal ⟨"b"⟩], [.terminal ⟨"d"⟩]] ∧
      roundabout.bodyDistance ⟨"S"⟩ [.terminal ⟨"c"⟩] ≤
        roundabout.bodyDistance ⟨"S"⟩ [.terminal ⟨"b"⟩] := by
  have h := unitPairs_nearest_first roundabout
  have hpair : (⟨"S"⟩, ⟨"D"⟩) ∈ roundabout.unitPairs := by decide
  have hbodies : roundabout.eliminateUnits.alternatives ⟨"S"⟩ = [[.terminal ⟨"s"⟩],
      [.terminal ⟨"a"⟩], [.terminal ⟨"c"⟩], [.terminal ⟨"b"⟩], [.terminal ⟨"d"⟩]] := by rfl
  have hsorted := (h.2.2 ⟨"S"⟩).2
  rw [hbodies] at hsorted
  exact ⟨hpair, h.1 _ hpair, hbodies,
    List.pairwise_iff_getElem.mp hsorted 2 3 (by decide) (by decide) (by decide)⟩

end Grammar

end Chomsky
