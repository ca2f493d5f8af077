import Chomsky.Proofs.Edits
import Chomsky.Proofs.Unit

/-!
# Inherited Bodies

What exactly a variable has after unit productions are removed.

The stage is a loop over the unit pairs. It starts from the grammar without its unit
productions, and for each pair it pushes the bodies at the end of the pair onto the
alternatives of its first variable, passing over units and over what is there already.
Seen from one variable, only its own pairs count, and what they push arrives in their
order. No variable comes in on the way, since a pair begins at a variable of the
grammar, whatever it ends at.

Pushing onto a list leaves the list as it is and puts behind it what was not in it, of
equal elements the first. So a variable keeps its own bodies with their repetitions and
inherits each of the others once. A chain that leads back to the variable finds all it
could bring there already, and one that ends at a variable without a rule brings nothing.

## Main definitions

* `Grammar.dropUnits`: A grammar less its unit productions.
* `Grammar.inheritBody`, `Grammar.inheritPair`, `Grammar.inheritAll`: The loop.

## Theorems

* `pushNew_eq_append`: What pushing puts behind a list.
* `alternatives_inheritPair`: What one round does to a variable.
* `alternatives_foldl_inheritPair`: What a row of rounds does to a variable.
* `inheritAll_eq`: The loop removes the unit productions.
* `exists_alternatives_eq_append`: What is inherited is new and there once.
* `eliminateUnits_inherits`: The variables and alternatives afterwards.
-/

namespace Chomsky

/-- What is pushed comes behind the list if it is not in it, of equal elements the
    first. -/
theorem pushNew_eq_append {α : Type} [BEq α] [LawfulBEq α] (xs ys : List α) :
    pushNew xs ys = xs ++ (ys.filter fun y => !xs.contains y).eraseDups := by
  -- From the end, since what comes last meets all the others.
  induction ys using List.reverseRecOn with
  | nil => exact (List.append_nil xs).symm
  | append_singleton ys y ih =>
      rw [pushNew_append, ih, pushNew, pushNew, List.filter_append]
      by_cases hxs : y ∈ xs
      · have hgone : ([y].filter fun y => !xs.contains y) = [] :=
          List.filter_cons_of_neg (by simp [hxs])
        rw [if_pos (List.contains_iff_mem.mpr (List.mem_append_left _ hxs)), hgone,
          List.append_nil]
      · have hkept : ([y].filter fun y => !xs.contains y) = [y] :=
          List.filter_cons_of_pos (by simp [hxs])
        have hmem : (xs ++ (ys.filter fun y => !xs.contains y).eraseDups).contains y = true ↔
            y ∈ ys.filter fun y => !xs.contains y := by
          rw [List.contains_iff_mem, List.mem_append, List.mem_eraseDups, or_iff_right hxs]
        rw [hkept, eraseDups_concat]
        by_cases hys : y ∈ ys.filter fun y => !xs.contains y
        · rw [if_pos (hmem.mpr hys), if_pos hys]
        · rw [if_neg fun h => hys (hmem.mp h), if_neg hys, List.append_assoc]

namespace Grammar

/-- A grammar less its unit productions. -/
def dropUnits (g : Grammar) : Grammar := g.mapAlternatives fun _ bodies => nonUnits bodies

/-- One round of the loop over the bodies of a target. Units are passed over, and any
    other body is pushed. -/
def inheritBody (v : Variable) (built : Grammar) (body : Body) : Grammar :=
  if body.isUnit then built else built.pushUnique v body

/-- One round of the loop over the unit pairs: the first variable inherits the bodies of
    the second. -/
def inheritPair (g built : Grammar) (p : Variable × Variable) : Grammar :=
  (g.alternatives p.2).foldl (inheritBody p.1) built

/-- The loop that has every variable inherit along its unit pairs. -/
def inheritAll (g : Grammar) : Grammar := g.unitPairs.foldl g.inheritPair g.dropUnits

theorem defined_inheritBody (v : Variable) (built : Grammar) (body : Body)
    (h : v ∈ built.defined) : (inheritBody v built body).defined = built.defined := by
  by_cases hunit : body.isUnit = true <;> simp [inheritBody, hunit, h]

theorem alternatives_inheritBody (v w : Variable) (built : Grammar) (body : Body) :
    (inheritBody v built body).alternatives w =
      if w = v then pushNew (built.alternatives w) (nonUnits [body]) else built.alternatives w := by
  rw [inheritBody]
  by_cases hunit : body.isUnit = true
  · have hnone : nonUnits [body] = [] := List.filter_cons_of_neg (by rw [hunit]; decide)
    rw [if_pos hunit, hnone, pushNew, ite_self]
  · have hone : nonUnits [body] = [body] :=
      List.filter_cons_of_pos (by rw [Bool.eq_false_iff.mpr hunit]; rfl)
    rw [if_neg hunit, hone]
    by_cases hw : w = v <;> simp [hw, pushNew, pushBody]

/-- A round adds no variable, and it gives the bodies other than units to the variable of
    the pair. -/
theorem defined_inheritPair (g built : Grammar) (p : Variable × Variable)
    (h : p.1 ∈ built.defined) : (g.inheritPair built p).defined = built.defined := by
  rw [inheritPair]
  induction g.alternatives p.2 generalizing built with
  | nil => rfl
  | cons body rest ih =>
      have hbody := defined_inheritBody p.1 built body h
      rw [List.foldl_cons, ih _ (hbody.symm ▸ h), hbody]

theorem alternatives_inheritPair (g built : Grammar) (p : Variable × Variable) (w : Variable) :
    (g.inheritPair built p).alternatives w =
      if w = p.1 then pushNew (built.alternatives w) (nonUnits (g.alternatives p.2))
      else built.alternatives w := by
  rw [inheritPair]
  induction g.alternatives p.2 generalizing built with
  | nil => exact (ite_self _).symm
  | cons body rest ih =>
      have hsplit : nonUnits (body :: rest) = nonUnits [body] ++ nonUnits rest :=
        List.filter_append [body] rest
      rw [List.foldl_cons, ih, alternatives_inheritBody, hsplit, pushNew_append]
      by_cases hw : w = p.1
      · rw [if_pos hw, if_pos hw, if_pos hw]
      · rw [if_neg hw, if_neg hw, if_neg hw]

theorem defined_foldl_inheritPair (g built : Grammar) (pairs : List (Variable × Variable))
    (h : ∀ p ∈ pairs, p.1 ∈ built.defined) :
    (pairs.foldl g.inheritPair built).defined = built.defined := by
  induction pairs generalizing built with
  | nil => rfl
  | cons p rest ih =>
      have hp := g.defined_inheritPair built p (h p List.mem_cons_self)
      rw [List.foldl_cons, ih _ fun q hq => hp.symm ▸ h q (List.mem_cons_of_mem p hq), hp]

/-- Of a row of rounds only those for its own pairs change a variable. -/
theorem alternatives_foldl_inheritPair (g built : Grammar) (pairs : List (Variable × Variable))
    (w : Variable) : (pairs.foldl g.inheritPair built).alternatives w =
      pushNew (built.alternatives w) (g.inherited pairs w) := by
  induction pairs generalizing built with
  | nil => rfl
  | cons p rest ih =>
      rw [List.foldl_cons, ih, alternatives_inheritPair, inherited, inherited, List.filter_cons]
      by_cases hw : w = p.1
      · rw [if_pos hw, if_pos (beq_iff_eq.mpr hw.symm), List.flatMap_cons, pushNew_append]
      · rw [if_neg hw, if_neg fun e => hw (beq_iff_eq.mp e).symm]

/-- The loop removes the unit productions. -/
theorem inheritAll_eq (g : Grammar) : g.inheritAll = g.eliminateUnits := by
  have hdef : g.dropUnits.defined = g.defined := g.defined_mapAlternatives _
  have halt : ∀ v, g.dropUnits.alternatives v = nonUnits (g.alternatives v) :=
    fun v => g.alternatives_mapAlternatives_of_nil _ v rfl
  refine eq_of_alternatives _ _ ?_ fun v _ => ?_
  · rw [inheritAll, defined_foldl_inheritPair, hdef, defined_eliminateUnits]
    intro p hp
    rw [hdef]
    -- A unit pair begins at a variable of the grammar.
    exact (g.mem_of_transGen p.1 p.2 ((g.mem_unitPairs_iff p.1 p.2).mp hp)).1
  · rw [inheritAll, alternatives_foldl_inheritPair, halt, alternatives_eliminateUnits]

/-- A variable keeps its bodies other than units, and what comes behind them is new and
    there once. -/
theorem exists_alternatives_eq_append (g : Grammar) (v : Variable) : ∃ added,
    g.eliminateUnits.alternatives v = (g.alternatives v).filter (!·.isUnit) ++ added ∧
      added.Nodup ∧ ∀ body ∈ added, body ∉ g.alternatives v := by
  have hsplit := g.alternatives_eliminateUnits v
  rw [pushNew_eq_append] at hsplit
  refine ⟨_, hsplit, nodup_eraseDups _, fun body hb hown => ?_⟩
  rcases List.mem_filter.mp (List.mem_eraseDups.mp hb) with ⟨hinherited, hnew⟩
  rcases (g.mem_inherited v body).mp hinherited with ⟨_, _, _, hunit⟩
  -- A body of its own that is no unit was there before anything was pushed.
  rw [List.contains_iff_mem.mpr ((mem_nonUnits _ body).mpr ⟨hown, hunit⟩)] at hnew
  exact Bool.false_ne_true hnew

/-- Removing unit productions keeps the variables and their order. A variable keeps its
    bodies other than units, in their order and as often as it has them. Behind them come
    bodies that it does not have, none of them twice. Altogether its alternatives are the
    bodies, single variables excepted, that are found along chains of unit productions,
    those of no steps included. The stage is the loop that pushes the bodies of each unit
    pair unless they are there already. -/
theorem eliminateUnits_inherits (g : Grammar) :
    g.eliminateUnits.defined = g.defined ∧
    (∀ v, ∃ added,
      g.eliminateUnits.alternatives v = (g.alternatives v).filter (!·.isUnit) ++ added ∧
      added.Nodup ∧ ∀ body ∈ added, body ∉ g.alternatives v) ∧
    (∀ v body, body ∈ g.eliminateUnits.alternatives v ↔ (∀ u, body ≠ [.nonterminal u]) ∧
      ∃ u, Relation.ReflTransGen g.UnitStep v u ∧ body ∈ g.alternatives u) ∧
    g.inheritAll = g.eliminateUnits := by
  refine ⟨g.defined_eliminateUnits, g.exists_alternatives_eq_append, fun v body => ?_,
    g.inheritAll_eq⟩
  rw [mem_alternatives_eliminateUnits, Body.isUnit_eq_false_iff]

/-- Chains lead from `S` and `A` back to themselves and to a variable without a rule. Both
    share a body, which `S` has twice, and `C` has nothing but itself. -/
def entangled : Grammar := ofRules [
  (⟨"S"⟩, [[.nonterminal ⟨"A"⟩], [.terminal ⟨"s"⟩], [.terminal ⟨"s"⟩], [.nonterminal ⟨"X"⟩]]),
  (⟨"A"⟩, [[.terminal ⟨"a"⟩], [.nonterminal ⟨"S"⟩], [.terminal ⟨"s"⟩], []]),
  (⟨"C"⟩, [[.nonterminal ⟨"C"⟩]])]

theorem eliminateUnits_entangled :
    entangled.eliminateUnits = ofRules [
      (⟨"S"⟩, [[.terminal ⟨"s"⟩], [.terminal ⟨"s"⟩], [.terminal ⟨"a"⟩], []]),
      (⟨"A"⟩, [[.terminal ⟨"a"⟩], [.terminal ⟨"s"⟩], []]), (⟨"C"⟩, [])] ∧
    [.terminal ⟨"a"⟩] ∉ entangled.alternatives ⟨"S"⟩ ∧
    ∃ u, Relation.ReflTransGen entangled.UnitStep ⟨"S"⟩ u ∧
      [.terminal ⟨"a"⟩] ∈ entangled.alternatives u := by
  have h := eliminateUnits_inherits entangled
  rcases h.2.1 ⟨"S"⟩ with ⟨added, hadded, _, hnew⟩
  have hbody : [.terminal ⟨"a"⟩] ∈ added := by
    have hsplit : [[Symbol.terminal ⟨"s"⟩], [.terminal ⟨"s"⟩]] ++ [[.terminal ⟨"a"⟩], []] =
        [[.terminal ⟨"s"⟩], [.terminal ⟨"s"⟩]] ++ added := hadded
    rw [← List.append_cancel_left hsplit]
    exact List.mem_cons_self
  exact ⟨by rfl, hnew _ hbody, ((h.2.2.1 ⟨"S"⟩ [.terminal ⟨"a"⟩]).mp (by decide)).2⟩

end Grammar

end Chomsky
