import Chomsky.Proofs.Language
import Chomsky.Proofs.UnitPairs
import Chomsky.Unit

/-!
# Unit Productions and the Language

Removing unit productions keeps every language.

After the stage a variable has exactly the bodies at the end of its unit chains,
those of length zero included, that are not units themselves. A chain only adds
words on the way back to its first variable, so such a body stays within the
language of the variable that inherits it. In the other direction a unit
production is not missed: whatever the target derives now, it derives by a body
at the end of one of its chains, and the chain can be prolonged at its front.

## Theorems

* `mem_alternatives_eliminateUnits`: The bodies at the end of the unit chains.
* `language_le_of_reflTransGen`: A chain only adds words on the way back.
* `language_eliminateUnits`: The languages stay and no unit is left.
-/

namespace Chomsky

theorem Body.isUnit_iff (body : Body) : body.isUnit = true ↔ ∃ v, body = [.nonterminal v] := by
  simp only [isUnit, Option.isSome_iff_exists, unitTarget_eq_some_iff]

theorem Body.isUnit_eq_false_iff (body : Body) :
    body.isUnit = false ↔ ∀ v, body ≠ [.nonterminal v] := by
  rw [← Bool.not_eq_true, isUnit_iff, not_exists]

theorem Body.isUnit_of_two_le_length (body : Body) (h : 2 ≤ body.length) :
    body.isUnit = false := by
  rw [Bool.eq_false_iff, Ne, isUnit_iff]
  intro hunit
  rcases hunit with ⟨v, rfl⟩
  rw [List.length_singleton] at h
  omega

theorem Body.two_le_length_of_not_isUnit (body : Body) (v : Variable)
    (hv : .nonterminal v ∈ body) (h : body.isUnit = false) : 2 ≤ body.length := by
  rcases body with _ | ⟨s, _ | ⟨x, rest⟩⟩
  · exact absurd hv List.not_mem_nil
  · rw [← List.mem_singleton.mp hv] at h
    exact absurd ((isUnit_iff _).mpr ⟨v, rfl⟩) (Bool.eq_false_iff.mp h)
  · simp only [List.length_cons]
    omega

namespace Grammar

@[simp] theorem mem_nonUnits (bodies : List Body) (body : Body) :
    body ∈ nonUnits bodies ↔ body ∈ bodies ∧ body.isUnit = false := by
  simp only [nonUnits, List.mem_filter, Bool.not_eq_true']

theorem mem_inherited (g : Grammar) (v : Variable) (body : Body) :
    body ∈ g.inherited g.unitPairs v ↔
      ∃ u, Relation.TransGen g.UnitStep v u ∧ body ∈ g.alternatives u ∧ body.isUnit = false := by
  simp only [inherited, List.mem_flatMap, List.mem_filter, beq_iff_eq, mem_nonUnits]
  constructor
  · intro h
    rcases h with ⟨⟨a, b⟩, ⟨hp, rfl⟩, hb⟩
    exact ⟨b, (g.mem_unitPairs_iff a b).mp hp, hb⟩
  · intro h
    rcases h with ⟨u, hu, hb⟩
    exact ⟨(v, u), ⟨(g.mem_unitPairs_iff v u).mpr hu, rfl⟩, hb⟩

theorem alternatives_eliminateUnits (g : Grammar) (v : Variable) :
    g.eliminateUnits.alternatives v =
      pushNew (nonUnits (g.alternatives v)) (g.inherited g.unitPairs v) := by
  rw [eliminateUnits, alternatives_mapAlternatives]
  by_cases hv : v ∈ g.defined
  · rw [if_pos hv]
  · -- Without alternatives there is no chain to inherit along.
    have hnone : g.inherited g.unitPairs v = [] := by
      rw [List.eq_nil_iff_forall_not_mem]
      intro body hb
      rcases (g.mem_inherited v body).mp hb with ⟨u, hu, _⟩
      exact hv (g.mem_of_transGen v u hu).1
    rw [if_neg hv, hnone, g.alternatives_of_not_mem v hv]
    rfl

/-- A variable has the bodies, other than units, at the end of its chains. -/
theorem mem_alternatives_eliminateUnits (g : Grammar) (v : Variable) (body : Body) :
    body ∈ g.eliminateUnits.alternatives v ↔ body.isUnit = false ∧
      ∃ u, Relation.ReflTransGen g.UnitStep v u ∧ body ∈ g.alternatives u := by
  rw [alternatives_eliminateUnits, mem_pushNew, mem_nonUnits, mem_inherited]
  constructor
  · intro h
    rcases h with ⟨hb, hunit⟩ | ⟨u, hu, hb, hunit⟩
    · exact ⟨hunit, v, Relation.ReflTransGen.refl, hb⟩
    · exact ⟨hunit, u, hu.to_reflTransGen, hb⟩
  · intro h
    rcases h with ⟨hunit, u, hu, hb⟩
    rcases Relation.reflTransGen_iff_eq_or_transGen.mp hu with rfl | hu
    · exact Or.inl ⟨hb, hunit⟩
    · exact Or.inr ⟨u, hu, hb, hunit⟩

@[simp] theorem defined_eliminateUnits (g : Grammar) : g.eliminateUnits.defined = g.defined :=
  g.defined_mapAlternatives _

theorem language_le_of_unitStep (g : Grammar) (a b : Variable) (h : g.UnitStep a b) :
    g.language b ≤ g.language a := by
  have hle := g.language_le_of_mem a [.nonterminal b] h (List.cons_ne_nil _ _)
  rwa [Body.language_singleton] at hle

theorem language_le_of_reflTransGen (g : Grammar) (a b : Variable)
    (h : Relation.ReflTransGen g.UnitStep a b) : g.language b ≤ g.language a := by
  induction h with
  | refl => exact le_refl _
  | tail _ hstep ih => exact le_trans (g.language_le_of_unitStep _ _ hstep) ih

theorem language_eliminateUnits_le (g : Grammar) (v : Variable) :
    g.eliminateUnits.language v ≤ g.language v := by
  refine g.eliminateUnits.language_le_of_closed g.language (fun u body hb hne => ?_) v
  -- The body is at the end of a chain, whose variables all derive what it does.
  rcases (g.mem_alternatives_eliminateUnits u body).mp hb with ⟨_, x, hx, hbody⟩
  exact le_trans (g.language_le_of_mem x body hbody hne) (g.language_le_of_reflTransGen u x hx)

theorem le_language_eliminateUnits (g : Grammar) (v : Variable) :
    g.language v ≤ g.eliminateUnits.language v := by
  refine g.language_le_of_closed g.eliminateUnits.language (fun u body hb hne => ?_) v
  by_cases hunit : body.isUnit = true
  · -- The bodies of the target of a unit are inherited as well.
    rcases body.isUnit_iff.mp hunit with ⟨x, rfl⟩
    rw [Body.language_singleton]
    intro w hw
    rcases (g.eliminateUnits.mem_language_iff x w).mp hw with ⟨b, hbx, hbne, hword⟩
    rcases (g.mem_alternatives_eliminateUnits x b).mp hbx with ⟨hbunit, y, hy, hby⟩
    have hinherit := (g.mem_alternatives_eliminateUnits u b).mpr
      ⟨hbunit, y, Relation.ReflTransGen.head hb hy, hby⟩
    exact g.eliminateUnits.language_le_of_mem u b hinherit hbne hword
  · have hown := (g.mem_alternatives_eliminateUnits u body).mpr
      ⟨Bool.eq_false_iff.mpr hunit, u, Relation.ReflTransGen.refl, hb⟩
    exact g.eliminateUnits.language_le_of_mem u body hown hne

theorem language_eliminateUnits_eq (g : Grammar) (v : Variable) :
    g.eliminateUnits.language v = g.language v :=
  le_antisymm (g.language_eliminateUnits_le v) (g.le_language_eliminateUnits v)

/-- Removing unit productions keeps the language of every variable and leaves no
    body that is a single variable, whatever cycles, loops and undefined targets
    the unit productions have. -/
theorem language_eliminateUnits (g : Grammar) :
    (∀ v, g.eliminateUnits.language v = g.language v) ∧
      ∀ v u, [.nonterminal u] ∉ g.eliminateUnits.alternatives v := by
  refine ⟨g.language_eliminateUnits_eq, fun v u hu => ?_⟩
  have hunit := ((g.mem_alternatives_eliminateUnits v [.nonterminal u]).mp hu).1
  exact Bool.eq_false_iff.mp hunit ((Body.isUnit_iff _).mpr ⟨u, rfl⟩)

end Grammar

end Chomsky
