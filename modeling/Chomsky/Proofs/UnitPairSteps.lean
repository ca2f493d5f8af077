import Chomsky.FreshName
import Chomsky.Proofs.UnitPairs
import Mathlib.Data.Set.Card

/-!
# Steps of the Search for Unit Pairs

How long the search for unit pairs takes.

The search is a loop over a list that it makes longer while it goes. Here its steps are
counted without a bound on their number: `stepFor` takes as many as it is told to, and
has no result if the pairs run out before.

A step moves the cursor on by one and adds pairs behind all others, so the pair that the
next step finds under the cursor keeps its place to the end. The search ends where the
cursor has passed the last pair. It has then taken one step for each pair of the answer,
in the order in which they are listed.

That the list stops growing is a matter of the pairs that can be in it. None is there
twice, and each joins a variable of the grammar with the target of a unit production
(`Worklist.Invariant`), so their number is at most the product of the two, whatever
cycles the productions make. A cycle through all variables has all these pairs, and the
bound is reached.

## Main definitions

* `Worklist.stepFor`: Processing a number of pairs.
* `Worklist.Extends`: What a number of steps makes of a worklist.
* `Grammar.worklistAfter`: The worklist after a number of steps of the search.
* `Grammar.cycle`: A cycle of unit productions.

## Theorems

* `stepFor_add`: Steps after steps.
* `extends_stepFor`: The cursor counts the steps, and the pairs stay where they are.
* `le_of_stepFor`: No more steps than it takes to the end.
* `worklistAfter_unitPairs`: As many steps as there are pairs lead to the end.
* `unitPairBound_eq`: The bound as the size of two sets.
* `length_unitPairs_cycle`: A cycle has all the pairs there can be.
* `unitPairs_steps`: The steps of the search.
-/

namespace Chomsky

namespace Worklist

/-- Process a number of pairs one after the other. There is no result if fewer are
    left. -/
def stepFor (g : Grammar) : (steps : Nat) → Worklist → Option Worklist
  | 0, w => some w
  | n + 1, w => (w.step g).bind (stepFor g n)

theorem stepFor_add (g : Grammar) (m n : Nat) (w : Worklist) :
    stepFor g (m + n) w = (stepFor g m w).bind (stepFor g n) := by
  induction m generalizing w with
  | zero =>
      rw [Nat.zero_add]
      rfl
  | succ m ih =>
      rw [Nat.add_right_comm]
      simp only [stepFor]
      cases w.step g with
      | none => rfl
      | some next => exact ih next

/-- What a number of steps makes of a worklist: the cursor moves on by that number, all
    pairs keep their places, and the cursor does not pass the end of the list. -/
structure Extends (w : Worklist) (steps : Nat) (t : Worklist) : Prop where
  cursor : t.cursor = w.cursor + steps
  pairs : w.pairs <+: t.pairs
  within : w.cursor ≤ w.pairs.length → t.cursor ≤ t.pairs.length

theorem extends_step (g : Grammar) (w next : Worklist) (h : w.step g = some next) :
    Extends w 1 next := by
  rcases (step_eq_some_iff g w next).mp h with ⟨p, hp, rfl⟩
  have hlt : w.cursor < w.pairs.length := (List.getElem?_eq_some_iff.mp hp).1
  rcases exists_pushNew_eq_append w.pairs ((g.unitTargets p.2).map (p.1, ·))
    with ⟨added, hadded, _⟩
  refine ⟨rfl, ⟨added, hadded.symm⟩, fun _ => ?_⟩
  simp only [hadded, List.length_append]
  omega

theorem extends_stepFor (g : Grammar) (n : Nat) (w t : Worklist)
    (h : stepFor g n w = some t) : Extends w n t := by
  induction n generalizing w with
  | zero =>
      cases Option.some.inj h
      exact ⟨rfl, List.prefix_refl _, id⟩
  | succ n ih =>
      rcases Option.bind_eq_some_iff.mp h with ⟨next, hstep, hrest⟩
      have hone := extends_step g w next hstep
      have hmore := ih next hrest
      refine ⟨?_, hone.pairs.trans hmore.pairs, fun hw => hmore.within (hone.within hw)⟩
      rw [hmore.cursor, hone.cursor]
      omega

theorem Extends.getElem? {w t : Worklist} {n : Nat} (h : Extends w n t) (i : Nat)
    (hi : i < w.pairs.length) : t.pairs[i]? = w.pairs[i]? := by
  rcases h.pairs with ⟨added, hadded⟩
  rw [← hadded, List.getElem?_append_left hi]

/-- When all pairs are processed there is no further step. -/
theorem le_of_stepFor (g : Grammar) (m n : Nat) (w t u : Worklist)
    (ht : stepFor g n w = some t) (hend : t.step g = none) (hu : stepFor g m w = some u) :
    m ≤ n := by
  by_contra hlt
  rcases Nat.exists_eq_add_of_lt (Nat.lt_of_not_le hlt) with ⟨k, rfl⟩
  rw [Nat.add_assoc, stepFor_add, ht, Option.bind_some, stepFor, hend] at hu
  exact absurd hu.symm (Option.some_ne_none u)

/-- On the way to a later worklist there is one for every smaller number of steps. -/
theorem exists_stepFor_of_le (g : Grammar) (m n : Nat) (w t : Worklist)
    (h : stepFor g n w = some t) (hle : m ≤ n) :
    ∃ u, stepFor g m w = some u ∧ stepFor g (n - m) u = some t := by
  rw [← Nat.add_sub_cancel' hle, stepFor_add] at h
  exact Option.bind_eq_some_iff.mp h

/-- A run that is cut off has taken some number of steps. -/
theorem exists_stepFor_run (g : Grammar) (steps : Nat) (w : Worklist) :
    ∃ n, stepFor g n w = some (run g steps w) := by
  induction steps generalizing w with
  | zero => exact ⟨0, rfl⟩
  | succ k ih =>
      rw [run]
      cases hstep : w.step g with
      | none => exact ⟨0, rfl⟩
      | some next =>
          rcases ih next with ⟨n, hn⟩
          refine ⟨n + 1, ?_⟩
          rw [stepFor, hstep]
          exact hn

end Worklist

open Worklist

namespace Grammar

/-- The worklist after a number of steps of the search, if it goes on for so long. -/
def worklistAfter (g : Grammar) (steps : Nat) : Option Worklist :=
  stepFor g steps ⟨g.directPairs, 0⟩

/-- As many steps as there are unit pairs lead to the worklist that has all of them and
    the cursor behind them. -/
theorem worklistAfter_unitPairs (g : Grammar) :
    g.worklistAfter g.unitPairs.length = some ⟨g.unitPairs, g.unitPairs.length⟩ := by
  rcases exists_stepFor_run g g.unitPairBound ⟨g.directPairs, 0⟩ with ⟨n, hn⟩
  have hext := extends_stepFor g n _ _ hn
  have hpassed := length_le_cursor_run g g.unitPairBound ⟨g.directPairs, 0⟩ (invariant_start g)
    (Nat.le_add_left _ _)
  have hwithin := hext.within (Nat.zero_le _)
  -- The cursor has passed all pairs and no more, and it has counted the steps.
  have hcursor := Nat.le_antisymm hwithin hpassed
  have hcount : n = g.unitPairs.length := by
    rw [← Nat.zero_add n]
    exact hext.cursor.symm.trans hcursor
  rw [worklistAfter, ← hcount, hn, hcount]
  exact congrArg (fun c => some (Worklist.mk g.unitPairs c)) hcursor

theorem step_unitPairs (g : Grammar) :
    Worklist.step g ⟨g.unitPairs, g.unitPairs.length⟩ = none :=
  (step_eq_none_iff g _).mpr (Nat.le_refl _)

/-- The bound counts the variables of the grammar and the variables that are a body of
    their own. -/
theorem unitPairBound_eq (g : Grammar) :
    g.unitPairBound = g.size * {b | ∃ a, g.UnitStep a b}.ncard := by
  have hset : {b | ∃ a, g.UnitStep a b} = ↑g.unitBodies.toFinset := by
    ext b
    simp only [Set.mem_ofPred_eq, List.coe_toFinset, mem_unitBodies]
  have hnodup : g.unitBodies.Nodup := nodup_eraseDups _
  rw [hset, Set.ncard_coe_finset, List.toFinset_card_of_nodup hnodup, unitPairBound]

/-- A pair is listed at a place exactly if the search takes a step from there, with that
    pair under the cursor. -/
theorem getElem?_unitPairs (g : Grammar) (i : Nat) (p : Variable × Variable) :
    g.unitPairs[i]? = some p ↔
      ∃ w, g.worklistAfter i = some w ∧ w.cursor = i ∧ w.pairs[i]? = some p := by
  have hend := g.worklistAfter_unitPairs
  constructor
  · intro hp
    have hi : i < g.unitPairs.length := (List.getElem?_eq_some_iff.mp hp).1
    rcases exists_stepFor_of_le g i _ _ _ hend (Nat.le_of_lt hi) with ⟨w, hw, hrest⟩
    have hcursor : w.cursor = i :=
      (extends_stepFor g i _ w hw).cursor.trans (Nat.zero_add i)
    -- The search does not end here, so there is a pair under the cursor.
    have hlt : i < w.pairs.length := by
      by_contra hle
      have hdone : w.step g = none :=
        (step_eq_none_iff g w).mpr (hcursor ▸ Nat.le_of_not_lt hle)
      exact absurd (le_of_stepFor g _ i _ w _ hw hdone hend) (Nat.not_le_of_lt hi)
    refine ⟨w, hw, hcursor, ?_⟩
    rw [← (extends_stepFor g _ w _ hrest).getElem? i hlt]
    exact hp
  · rintro ⟨w, hw, hcursor, hp⟩
    have hle := le_of_stepFor g i _ _ _ w hend g.step_unitPairs hw
    rcases exists_stepFor_of_le g i _ _ _ hend hle with ⟨u, hu, hrest⟩
    cases Option.some.inj (hw.symm.trans hu)
    have hlt : i < w.pairs.length := (List.getElem?_eq_some_iff.mp hp).1
    rw [← (extends_stepFor g _ w _ hrest).getElem? i hlt] at hp
    exact hp

/-- A cycle of variables, each with the next one as its only body. -/
def cycle (n : Nat) : Grammar where
  rules := (List.range n).map fun i =>
    (freshVariable 'V' i, [[.nonterminal (freshVariable 'V' ((i + 1) % n))]])
  distinct := by
    rw [List.map_map]
    exact List.nodup_range.map fun i j => freshVariable_injective 'V' i j

theorem size_cycle (n : Nat) : (cycle n).size = n := by
  rw [size, cycle, List.length_map, List.length_range]

theorem length_defined_cycle (n : Nat) : (cycle n).defined.length = n := by
  rw [defined, List.length_map]
  exact size_cycle n

theorem mem_defined_cycle (n : Nat) (a : Variable) :
    a ∈ (cycle n).defined ↔ ∃ i < n, a = freshVariable 'V' i := by
  simp only [defined, cycle, List.map_map, List.mem_map, List.mem_range, Function.comp_apply,
    eq_comm]

theorem unitStep_cycle (n : Nat) (a b : Variable) :
    (cycle n).UnitStep a b ↔
      ∃ i < n, a = freshVariable 'V' i ∧ b = freshVariable 'V' ((i + 1) % n) := by
  simp only [UnitStep, mem_alternatives_iff, cycle, List.mem_map, List.mem_range]
  constructor
  · rintro ⟨r, ⟨i, hi, rfl⟩, rfl, hb⟩
    rw [List.mem_singleton, List.singleton_inj, Symbol.nonterminal.injEq] at hb
    exact ⟨i, hi, rfl, hb⟩
  · rintro ⟨i, hi, rfl, rfl⟩
    exact ⟨_, ⟨i, hi, rfl⟩, rfl, List.mem_singleton_self _⟩

/-- Going on along the cycle for any number of steps. -/
theorem transGen_cycle (n i k : Nat) (hi : i < n) :
    Relation.TransGen (cycle n).UnitStep (freshVariable 'V' i)
      (freshVariable 'V' ((i + k + 1) % n)) := by
  induction k with
  | zero => exact Relation.TransGen.single ((unitStep_cycle n _ _).mpr ⟨i, hi, rfl, rfl⟩)
  | succ k ih =>
      refine ih.tail ((unitStep_cycle n _ _).mpr
        ⟨_, Nat.mod_lt _ (Nat.zero_lt_of_lt hi), rfl, ?_⟩)
      rw [Nat.mod_add_mod, Nat.add_assoc i k 1]

/-- Every variable of a cycle reaches every other one, and itself. -/
theorem product_subset_unitPairs_cycle (n : Nat) :
    (cycle n).defined ×ˢ (cycle n).defined ⊆ (cycle n).unitPairs := by
  rintro ⟨a, b⟩ hp
  rcases List.mem_product.mp hp with ⟨ha, hb⟩
  rcases (mem_defined_cycle n a).mp ha with ⟨i, hi, rfl⟩
  rcases (mem_defined_cycle n b).mp hb with ⟨j, hj, rfl⟩
  have hchain := transGen_cycle n i (n + j - (i + 1)) hi
  -- Once around, up to the target.
  have hround : (i + (n + j - (i + 1)) + 1) % n = j := by
    rw [show i + (n + j - (i + 1)) + 1 = n + j by omega, Nat.add_mod_left, Nat.mod_eq_of_lt hj]
  rw [hround] at hchain
  exact ((cycle n).mem_unitPairs_iff _ _).mpr hchain

/-- In a cycle every variable reaches every variable, so it has all the unit pairs there
    can be. -/
theorem length_unitPairs_cycle (n : Nat) :
    (cycle n).unitPairs.length = n * n ∧ (cycle n).unitPairBound = n * n := by
  have hnodup : (cycle n).defined.Nodup := (cycle n).distinct
  have hmany := (hnodup.product hnodup).length_le_of_subset (product_subset_unitPairs_cycle n)
  rw [List.length_product, length_defined_cycle] at hmany
  have htargets : (cycle n).unitBodies ⊆ (cycle n).defined := by
    intro b hb
    rcases ((cycle n).mem_unitBodies b).mp hb with ⟨a, hab⟩
    rcases (unitStep_cycle n a b).mp hab with ⟨i, hi, _, rfl⟩
    exact (mem_defined_cycle n _).mpr ⟨_, Nat.mod_lt _ (Nat.zero_lt_of_lt hi), rfl⟩
  have hfew := (nodup_eraseDups _).length_le_of_subset htargets
  rw [length_defined_cycle] at hfew
  have hbound : (cycle n).unitPairs.length ≤ (cycle n).unitPairBound :=
    length_le_bound (cycle n) _ (cycle n).invariant_unitPairs
  have hsquare : (cycle n).unitPairBound ≤ n * n := by
    rw [unitPairBound, size_cycle]
    exact Nat.mul_le_mul_left n hfew
  omega

/-- The search for unit pairs ends on every grammar, whatever cycles its unit productions
    make. It is over after as many steps as there are pairs in the answer and after no
    other number of steps, and it takes one step from each of these pairs, in their
    order. There are at most as many as the variables of the grammar times the variables
    that are a body of their own. -/
theorem unitPairs_steps (g : Grammar) :
    (∀ n w, g.worklistAfter n = some w ∧ w.step g = none ↔
      n = g.unitPairs.length ∧ w = ⟨g.unitPairs, g.unitPairs.length⟩) ∧
    (∀ i p, g.unitPairs[i]? = some p ↔
      ∃ w, g.worklistAfter i = some w ∧ w.cursor = i ∧ w.pairs[i]? = some p) ∧
    g.unitPairs.length ≤ g.size * {b | ∃ a, g.UnitStep a b}.ncard := by
  have hend := g.worklistAfter_unitPairs
  refine ⟨fun n w => ⟨?_, ?_⟩, g.getElem?_unitPairs, ?_⟩
  · rintro ⟨hw, hdone⟩
    -- Neither of two ends of the search is before the other.
    have hn := Nat.le_antisymm (le_of_stepFor g _ _ _ _ w hend g.step_unitPairs hw)
      (le_of_stepFor g _ _ _ w _ hw hdone hend)
    subst hn
    exact ⟨rfl, Option.some.inj (hw.symm.trans hend)⟩
  · rintro ⟨rfl, rfl⟩
    exact ⟨hend, g.step_unitPairs⟩
  · rw [← unitPairBound_eq]
    exact length_le_bound g _ g.invariant_unitPairs

end Grammar

end Chomsky
