import Chomsky.Grammar.Lemmas
import Mathlib.Data.List.Induction

/-!
# Rules Defined in a Row

What a grammar is after the rules of a list have been defined one after the other.

A rule replaces what was defined for its variable and keeps the place, so the list
falls apart at any point: what the first half defines is there unless the second
half defines it again, and the variables that only the second half has come last.
The order of the variables is that of their first rules, and the alternatives are
those of their last ones.

A rule is replaced as a whole. The rules of the grammar are therefore among those
of the list, and whatever holds of each rule of the list holds of the grammar. If no
variable has two rules, then they are the rules of the list.

## Theorems

* `defined_define`, `alternatives_define`: What one more rule does.
* `defined_defineAll`: The variables after a list of rules.
* `alternatives_defineAll`: The alternatives after a list of rules.
* `mem_of_mem_rules_ofRules`: No rule is made up.
* `ofRules_rules`: The rules of a grammar define it.
-/

namespace Chomsky

theorem updateRules_of_not_mem (v : Variable) (f : List Body → List Body) (rules : List Rule)
    (h : v ∉ rules.map Prod.fst) : updateRules v f rules = rules ++ [(v, f [])] := by
  induction rules with
  | nil => rfl
  | cons r rest ih =>
      rw [List.map_cons, List.mem_cons, not_or] at h
      rw [updateRules, if_neg fun e => h.1 e.symm, ih h.2, List.cons_append]

namespace Grammar

theorem defined_define (g : Grammar) (v : Variable) (bodies : List Body) :
    (g.define v bodies).defined = if v ∈ g.defined then g.defined else g.defined ++ [v] :=
  g.defined_update v _

@[simp] theorem alternatives_define (g : Grammar) (v w : Variable) (bodies : List Body) :
    (g.define v bodies).alternatives w = if w = v then bodies else g.alternatives w :=
  g.alternatives_update v w _

@[simp] theorem mem_defined_define (g : Grammar) (v w : Variable) (bodies : List Body) :
    w ∈ (g.define v bodies).defined ↔ w ∈ g.defined ∨ w = v := by
  rw [defined_define]
  split
  · next hv => exact ⟨Or.inl, fun h => h.elim id fun e => e ▸ hv⟩
  · rw [List.mem_append, List.mem_singleton]

theorem mem_rules_iff (g : Grammar) (r : Rule) :
    r ∈ g.rules ↔ r.1 ∈ g.defined ∧ r.2 = g.alternatives r.1 := by
  constructor
  · exact fun h => ⟨List.mem_map_of_mem h, (g.alternatives_of_mem_rules r h).symm⟩
  · rintro ⟨hv, hbodies⟩
    rw [g.rules_eq_map]
    exact List.mem_map.mpr ⟨r.1, hv, by rw [← hbodies]⟩

/-- One more rule is the only one that comes in. -/
theorem mem_rules_define (g : Grammar) (v : Variable) (bodies : List Body) (r : Rule)
    (h : r ∈ (g.define v bodies).rules) : r = (v, bodies) ∨ r ∈ g.rules := by
  rw [mem_rules_iff] at h
  by_cases hv : r.1 = v
  · exact Or.inl (Prod.ext hv (by simpa [hv] using h))
  · exact Or.inr ((g.mem_rules_iff r).mpr (by simpa [hv] using h))

theorem defineAll_concat (g : Grammar) (rules : List Rule) (r : Rule) :
    g.defineAll (rules ++ [r]) = (g.defineAll rules).define r.1 r.2 := by
  rw [defineAll, List.foldl_append]
  rfl

theorem ofRules_concat (rules : List Rule) (r : Rule) :
    ofRules (rules ++ [r]) = (ofRules rules).define r.1 r.2 :=
  empty.defineAll_concat rules r

theorem ofRules_append (rules more : List Rule) :
    ofRules (rules ++ more) = (ofRules rules).defineAll more :=
  List.foldl_append

/-- The variables of a list of rules come behind those that are there already, in
    the order in which they would come without them. -/
theorem defined_defineAll (g : Grammar) (rules : List Rule) : (g.defineAll rules).defined =
    g.defined ++ (ofRules rules).defined.filter fun v => decide (v ∉ g.defined) := by
  induction rules using List.reverseRecOn with
  | nil => exact (List.append_nil g.defined).symm
  | append_singleton rules r ih =>
      rw [defineAll_concat, ofRules_concat, defined_define, defined_define, ih]
      by_cases hrules : r.1 ∈ (ofRules rules).defined
      · -- A variable of an earlier rule is listed, wherever it was first.
        have hmem : r.1 ∈ g.defined ++
            (ofRules rules).defined.filter fun v => decide (v ∉ g.defined) := by
          by_cases hg : r.1 ∈ g.defined
          · exact List.mem_append_left _ hg
          · exact List.mem_append_right _ (List.mem_filter.mpr ⟨hrules, decide_eq_true hg⟩)
        rw [if_pos hmem, if_pos hrules]
      · rw [if_neg hrules, List.filter_append]
        by_cases hg : r.1 ∈ g.defined
        · have hdrop : [r.1].filter (fun v => decide (v ∉ g.defined)) = [] :=
            List.filter_cons_of_neg (by rw [decide_eq_true_eq]; exact not_not_intro hg)
          rw [if_pos (List.mem_append_left _ hg), hdrop, List.append_nil]
        · have hnone : r.1 ∉ g.defined ++
              (ofRules rules).defined.filter fun v => decide (v ∉ g.defined) := by
            rw [List.mem_append, not_or]
            exact ⟨hg, fun h => hrules (List.mem_filter.mp h).1⟩
          have hkeep : [r.1].filter (fun v => decide (v ∉ g.defined)) = [r.1] :=
            List.filter_cons_of_pos (decide_eq_true hg)
          rw [if_neg hnone, hkeep, List.append_assoc]

/-- Where a list of rules has alternatives for a variable they are the ones that
    count. -/
theorem alternatives_defineAll (g : Grammar) (rules : List Rule) (v : Variable) :
    (g.defineAll rules).alternatives v =
      if v ∈ (ofRules rules).defined then (ofRules rules).alternatives v
      else g.alternatives v := by
  induction rules using List.reverseRecOn with
  | nil => rfl
  | append_singleton rules r ih =>
      rw [defineAll_concat, ofRules_concat]
      by_cases hv : v = r.1
      · simp [hv]
      · by_cases hrules : v ∈ (ofRules rules).defined <;> simp [hv, hrules, ih]

theorem mem_of_mem_rules_ofRules (rules : List Rule) (r : Rule) (h : r ∈ (ofRules rules).rules) :
    r ∈ rules := by
  induction rules using List.reverseRecOn with
  | nil => exact h
  | append_singleton rules q ih =>
      rw [ofRules_concat] at h
      rcases mem_rules_define _ _ _ r h with rfl | h
      · exact List.mem_append_right rules List.mem_cons_self
      · exact List.mem_append_left [q] (ih h)

theorem rules_ofRules (rules : List Rule) (h : (rules.map Prod.fst).Nodup) :
    (ofRules rules).rules = rules := by
  induction rules using List.reverseRecOn with
  | nil => rfl
  | append_singleton rules r ih =>
      rw [List.map_append, List.nodup_append] at h
      have hnew : r.1 ∉ rules.map Prod.fst := fun hmem =>
        h.2.2 r.1 hmem r.1 List.mem_cons_self rfl
      rw [ofRules_concat]
      show updateRules r.1 (fun _ => r.2) (ofRules rules).rules = rules ++ [r]
      rw [ih h.1, updateRules_of_not_mem r.1 _ rules hnew]

theorem ofRules_rules (g : Grammar) : ofRules g.rules = g :=
  eq_of_rules _ _ (rules_ofRules g.rules g.distinct)

end Grammar

end Chomsky
