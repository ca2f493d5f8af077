import Chomsky.Grammar.Lemmas
import Chomsky.UnitPairs
import Mathlib.Data.List.Nodup
import Mathlib.Data.List.ProdSigma
import Mathlib.Logic.Relation

/-!
# Unit Pairs and Unit Chains

The search for unit pairs lists exactly the pairs that a chain of unit
productions joins, and it lists none of them twice.

The invariant of the worklist has four parts. No pair is listed twice, every
listed pair is joined by a chain, every single unit production is listed, and a
pair before the cursor has all its extensions by one more unit production
listed. Processing a pair keeps all four.

When the cursor has passed the last pair, the fourth part holds for every listed
pair, so the list is closed under extension and has every chain, whatever its
length. That point is reached because the bound on the steps is a bound on the
pairs as well: a chain begins at a variable of the grammar and ends at the target
of a unit production.

## Main definitions

* `Grammar.UnitStep`: A variable has a unit production to another.
* `Worklist.Invariant`: The four parts.

## Theorems

* `exists_pushNew_eq_append`: What is added is new and comes last.
* `mem_pushNew`, `nodup_pushNew`, `count_pushNew`: Adding what is not there yet.
* `invariant_step`: Processing a pair keeps the invariant.
* `length_le_cursor_run`: Enough steps process every pair.
* `mem_unitPairs_iff`: The unit pairs are those joined by a chain.
-/

namespace Chomsky

theorem pushNew_append {α : Type} [BEq α] (xs ys zs : List α) :
    pushNew xs (ys ++ zs) = pushNew (pushNew xs ys) zs := by
  induction ys generalizing xs with
  | nil => rfl
  | cons y ys ih => exact ih _

section PushNew

variable {α : Type} [BEq α] [LawfulBEq α]

/-- What is added was offered and is new, and it comes last. -/
theorem exists_pushNew_eq_append (xs ys : List α) :
    ∃ added, pushNew xs ys = xs ++ added ∧ ∀ y ∈ added, y ∈ ys ∧ y ∉ xs := by
  induction ys generalizing xs with
  | nil => exact ⟨[], (List.append_nil xs).symm, fun y hy => absurd hy List.not_mem_nil⟩
  | cons z ys ih =>
      rw [pushNew]
      by_cases hz : z ∈ xs
      · rcases ih xs with ⟨added, heq, hadded⟩
        rw [if_pos (List.contains_iff_mem.mpr hz)]
        exact ⟨added, heq, fun y hy => ⟨List.mem_cons_of_mem z (hadded y hy).1, (hadded y hy).2⟩⟩
      · rcases ih (xs ++ [z]) with ⟨added, heq, hadded⟩
        rw [if_neg fun h => hz (List.contains_iff_mem.mp h)]
        refine ⟨z :: added, by rw [heq, List.append_assoc]; rfl, fun y hy => ?_⟩
        rcases List.mem_cons.mp hy with rfl | hy
        · exact ⟨List.mem_cons_self, hz⟩
        · have hnew := hadded y hy
          rw [List.mem_append, not_or] at hnew
          exact ⟨List.mem_cons_of_mem z hnew.1, hnew.2.1⟩

@[simp] theorem mem_pushNew (xs ys : List α) (x : α) : x ∈ pushNew xs ys ↔ x ∈ xs ∨ x ∈ ys := by
  induction ys generalizing xs with
  | nil => simp only [pushNew, List.not_mem_nil, or_false]
  | cons y ys ih =>
      rw [pushNew, ih, List.mem_cons]
      split
      · next hy =>
          rw [List.contains_iff_mem] at hy
          constructor
          · intro hx
            rcases hx with h | h
            · exact Or.inl h
            · exact Or.inr (Or.inr h)
          · intro hx
            rcases hx with h | rfl | h
            · exact Or.inl h
            · exact Or.inl hy
            · exact Or.inr h
      · rw [List.mem_append, List.mem_singleton, or_assoc]

theorem nodup_pushNew (xs ys : List α) (h : xs.Nodup) : (pushNew xs ys).Nodup := by
  induction ys generalizing xs with
  | nil => exact h
  | cons y ys ih =>
      rw [pushNew]
      split
      · exact ih xs h
      · next hy =>
          rw [List.contains_iff_mem] at hy
          refine ih _ (List.nodup_append.mpr ⟨h, List.nodup_singleton y, fun a ha b hb e => ?_⟩)
          exact hy (List.mem_singleton.mp hb ▸ e ▸ ha)

/-- An element that was there before, or is not offered, is not added. -/
theorem count_pushNew (xs ys : List α) (x : α) (h : x ∈ xs ∨ x ∉ ys) :
    (pushNew xs ys).count x = xs.count x := by
  induction ys generalizing xs with
  | nil => rfl
  | cons y ys ih =>
      rw [pushNew]
      have hrest : x ∈ xs ∨ x ∉ ys := h.imp_right fun hx hy => hx (List.mem_cons_of_mem y hy)
      split
      · exact ih xs hrest
      · next hy =>
          rw [List.contains_iff_mem] at hy
          -- What is added is another element.
          have hne : x ≠ y := by
            intro e
            rw [e] at h
            exact h.elim hy fun hx => hx List.mem_cons_self
          rw [ih _ (hrest.imp_left fun hx => List.mem_append_left [y] hx), List.count_append,
            List.count_singleton, beq_false_of_ne fun e => hne e.symm]
          rfl

end PushNew

namespace Body

theorem unitTarget_eq_some_iff (body : Body) (v : Variable) :
    body.unitTarget = some v ↔ body = [.nonterminal v] := by
  constructor
  · intro h
    match body, h with
    | [.nonterminal u], h => rw [Option.some.inj h]
  · rintro rfl
    rfl

end Body

namespace Grammar

/-- A variable has another one as an alternative. -/
def UnitStep (g : Grammar) (a b : Variable) : Prop := [.nonterminal b] ∈ g.alternatives a

@[simp] theorem mem_unitTargets (g : Grammar) (a b : Variable) :
    b ∈ g.unitTargets a ↔ g.UnitStep a b := by
  simp only [unitTargets, List.mem_filterMap, Body.unitTarget_eq_some_iff, UnitStep,
    exists_eq_right]

@[simp] theorem mem_directPairs (g : Grammar) (a b : Variable) :
    (a, b) ∈ g.directPairs ↔ g.UnitStep a b := by
  simp only [directPairs, List.mem_eraseDups, List.mem_flatMap, List.mem_map, List.mem_filterMap,
    Body.unitTarget_eq_some_iff, UnitStep, mem_alternatives_iff, exists_eq_right, Prod.mk.injEq]
  constructor
  · intro h
    rcases h with ⟨r, hr, c, hc, rfl, rfl⟩
    exact ⟨r, hr, rfl, hc⟩
  · intro h
    rcases h with ⟨r, hr, rfl, hb⟩
    exact ⟨r, hr, b, hb, rfl, rfl⟩

theorem mem_unitBodies (g : Grammar) (b : Variable) :
    b ∈ g.unitBodies ↔ ∃ a, g.UnitStep a b := by
  simp only [unitBodies, List.mem_eraseDups, List.mem_filterMap, Body.unitTarget_eq_some_iff,
    exists_eq_right, mem_bodies_iff, UnitStep]

/-- A chain begins at a variable of the grammar and ends at the target of a unit
    production. -/
theorem mem_of_transGen (g : Grammar) (a b : Variable) (h : Relation.TransGen g.UnitStep a b) :
    a ∈ g.defined ∧ b ∈ g.unitBodies := by
  constructor
  · rcases Relation.TransGen.head'_iff.mp h with ⟨c, hc, _⟩
    exact g.mem_defined_of_mem_alternatives a _ hc
  · rcases Relation.TransGen.tail'_iff.mp h with ⟨c, _, hc⟩
    exact (g.mem_unitBodies b).mpr ⟨c, hc⟩

end Grammar

namespace Worklist

/-- What is true of the worklist at every point of the search. -/
structure Invariant (g : Grammar) (w : Worklist) : Prop where
  nodup : w.pairs.Nodup
  chain : ∀ p ∈ w.pairs, Relation.TransGen g.UnitStep p.1 p.2
  direct : ∀ a b, g.UnitStep a b → (a, b) ∈ w.pairs
  processed : ∀ i p, i < w.cursor → w.pairs[i]? = some p →
    ∀ c, g.UnitStep p.2 c → (p.1, c) ∈ w.pairs

theorem invariant_start (g : Grammar) : Invariant g ⟨g.directPairs, 0⟩ := by
  refine ⟨nodup_eraseDups _, ?_, ?_, ?_⟩
  · rintro ⟨a, b⟩ hp
    exact Relation.TransGen.single ((g.mem_directPairs a b).mp hp)
  · exact fun a b h => (g.mem_directPairs a b).mpr h
  · intro i p hi
    exact absurd hi (Nat.not_lt_zero i)

theorem step_eq_some_iff (g : Grammar) (w next : Worklist) :
    w.step g = some next ↔ ∃ p, w.pairs[w.cursor]? = some p ∧
      next = ⟨pushNew w.pairs ((g.unitTargets p.2).map (p.1, ·)), w.cursor + 1⟩ := by
  rw [step, Option.map_eq_some_iff]
  constructor
  · intro h
    rcases h with ⟨p, hp, rfl⟩
    exact ⟨p, hp, rfl⟩
  · intro h
    rcases h with ⟨p, hp, rfl⟩
    exact ⟨p, hp, rfl⟩

theorem step_eq_none_iff (g : Grammar) (w : Worklist) :
    w.step g = none ↔ w.pairs.length ≤ w.cursor := by
  simp only [step, Option.map_eq_none_iff, List.getElem?_eq_none_iff]

theorem invariant_step (g : Grammar) (w next : Worklist) (h : Invariant g w)
    (hstep : w.step g = some next) : Invariant g next := by
  rcases (step_eq_some_iff g w next).mp hstep with ⟨p, hp, rfl⟩
  have hmem : p ∈ w.pairs := List.mem_of_getElem? hp
  refine ⟨nodup_pushNew _ _ h.nodup, ?_, ?_, ?_⟩
  · intro q hq
    rcases (mem_pushNew _ _ q).mp hq with hq | hq
    · exact h.chain q hq
    · -- A new pair prolongs the chain of the pair being processed.
      rcases List.mem_map.mp hq with ⟨c, hc, rfl⟩
      exact (h.chain p hmem).tail ((g.mem_unitTargets p.2 c).mp hc)
  · intro a b hab
    exact (mem_pushNew _ _ _).mpr (Or.inl (h.direct a b hab))
  · -- A pair up to the cursor is an old one, for the list grows at its end only.
    intro i q hi hq c hc
    have hlt : w.cursor < w.pairs.length := (List.getElem?_eq_some_iff.mp hp).1
    have hold : w.pairs[i]? = some q := by
      rcases exists_pushNew_eq_append w.pairs ((g.unitTargets p.2).map (p.1, ·)) with
        ⟨added, hadded, _⟩
      simp only at hi hq
      rw [hadded, List.getElem?_append_left (by omega)] at hq
      exact hq
    rw [mem_pushNew]
    by_cases hcur : i = w.cursor
    · -- This is the pair that has just been processed.
      rw [hcur, hp, Option.some.injEq] at hold
      subst hold
      exact Or.inr (List.mem_map.mpr ⟨c, (g.mem_unitTargets p.2 c).mpr hc, rfl⟩)
    · simp only at hi
      exact Or.inl (h.processed i q (by omega) hold c hc)

theorem invariant_run (g : Grammar) (steps : Nat) (w : Worklist) (h : Invariant g w) :
    Invariant g (run g steps w) := by
  induction steps generalizing w with
  | zero => exact h
  | succ n ih =>
      rw [run]
      cases hstep : w.step g with
      | none => exact h
      | some next => exact ih next (invariant_step g w next h hstep)

theorem length_le_bound (g : Grammar) (w : Worklist) (h : Invariant g w) :
    w.pairs.length ≤ g.unitPairBound := by
  -- Every pair joins a variable of the grammar and a target of a unit production.
  have hsub : w.pairs ⊆ g.defined ×ˢ g.unitBodies := fun p hp =>
    List.mem_product.mpr (g.mem_of_transGen p.1 p.2 (h.chain p hp))
  have hle := h.nodup.length_le_of_subset hsub
  rwa [List.length_product, Grammar.defined, List.length_map] at hle

/-- With as many steps as there can be pairs, no pair is left unprocessed. -/
theorem length_le_cursor_run (g : Grammar) (steps : Nat) (w : Worklist) (h : Invariant g w)
    (hsteps : g.unitPairBound ≤ w.cursor + steps) :
    (run g steps w).pairs.length ≤ (run g steps w).cursor := by
  induction steps generalizing w with
  | zero => exact Nat.le_trans (length_le_bound g w h) hsteps
  | succ n ih =>
      rw [run]
      cases hstep : w.step g with
      | none => exact (step_eq_none_iff g w).mp hstep
      | some next =>
          -- The cursor moves on, so one step less is enough for the rest.
          have hcur : next.cursor = w.cursor + 1 := by
            rcases (step_eq_some_iff g w next).mp hstep with ⟨p, _, rfl⟩
            rfl
          exact ih next (invariant_step g w next h hstep) (by omega)

/-- When all pairs are processed, every chain has its pair. -/
theorem mem_pairs_of_transGen (g : Grammar) (w : Worklist) (h : Invariant g w)
    (hdone : w.pairs.length ≤ w.cursor) (a b : Variable)
    (hab : Relation.TransGen g.UnitStep a b) : (a, b) ∈ w.pairs := by
  induction hab with
  | single hstep => exact h.direct _ _ hstep
  | tail _ hstep ih =>
      -- The chain without its last step has a pair, and that pair is processed.
      rcases List.mem_iff_getElem?.mp ih with ⟨i, hi⟩
      have hlt : i < w.pairs.length := (List.getElem?_eq_some_iff.mp hi).1
      exact h.processed i _ (by omega) hi _ hstep

end Worklist

namespace Grammar

theorem invariant_unitPairs (g : Grammar) :
    Worklist.Invariant g (Worklist.run g g.unitPairBound ⟨g.directPairs, 0⟩) :=
  Worklist.invariant_run g g.unitPairBound _ (Worklist.invariant_start g)

theorem mem_unitPairs_iff (g : Grammar) (a b : Variable) :
    (a, b) ∈ g.unitPairs ↔ Relation.TransGen g.UnitStep a b := by
  constructor
  · exact fun h => g.invariant_unitPairs.chain (a, b) h
  · refine Worklist.mem_pairs_of_transGen g _ g.invariant_unitPairs ?_ a b
    exact Worklist.length_le_cursor_run g _ _ (Worklist.invariant_start g) (Nat.le_add_left _ _)

end Grammar

end Chomsky
