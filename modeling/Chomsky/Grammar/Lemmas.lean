import Chomsky.Grammar.Basic

/-!
# Lemmas on Grammars

What the operations do to the views of a grammar.

Every operation is an update of one variable, so two statements carry all of it:
an update changes the entry of its own variable and no other, and it adds its
variable at the end if the grammar did not have it.

The views themselves agree because the variables are distinct. A rule of the list
is the one that a look-up finds, so a body of the grammar is an alternative of
some variable and the other way round.

## Theorems

* `lookup_updateRules`: The entry of a variable after an update.
* `lookup_of_mem`: With distinct keys, a member of a list is what look-up finds.
* `nodup_eraseDups`: Erasing duplicates leaves none.
* `eraseDups_concat`: One more element counts as a duplicate or comes last.
* `defined_update`: The variables after an update.
* `alternatives_update`: The alternatives after an update.
* `contains_iff`: Being in a grammar is having an entry.
* `mem_alternatives_iff`: Alternatives by the rules of the list.
* `alternatives_mapAlternatives`: The alternatives after a change of all of them.
* `occursInBody_iff`: Occurring in a body by the alternatives.
* `count_bodies`: How often a body occurs that only one variable has.
* `eq_of_alternatives`: Two grammars with the same views are the same.
* `update_update`: Two updates of a variable make one.
* `equiv_iff`: The decision of `Grammar.Equiv` is right.
-/

namespace Chomsky

/-- An update of `v` leaves the entry of every other variable as it was, and
    changes that of `v`, starting from no alternatives if there was none. -/
theorem lookup_updateRules (v w : Variable) (f : List Body → List Body) (rules : List Rule) :
    (updateRules v f rules).lookup w =
      if w = v then some (f ((rules.lookup v).getD [])) else rules.lookup w := by
  induction rules with
  | nil =>
      by_cases h : w = v
      · simp [updateRules, h]
      · simp [updateRules, h, List.lookup_cons, beq_false_of_ne h]
  | cons r rest ih =>
      rcases r with ⟨u, bodies⟩
      by_cases hu : u = v
      · subst hu
        by_cases h : w = u
        · simp [updateRules, h]
        · simp [updateRules, h, List.lookup_cons, beq_false_of_ne h]
      · have hvu : (v == u) = false := beq_false_of_ne fun e => hu e.symm
        by_cases h : w = u
        · subst h
          simp [updateRules, hu]
        · have hwu : (w == u) = false := beq_false_of_ne h
          simp only [updateRules, hu, if_false, List.lookup_cons, hwu, hvu, ih]

theorem lookup_of_mem {α β : Type} [BEq α] [LawfulBEq α] (entries : List (α × β))
    (h : (entries.map Prod.fst).Nodup) (k : α) (b : β) (hm : (k, b) ∈ entries) :
    entries.lookup k = some b := by
  induction entries with
  | nil => exact absurd hm List.not_mem_nil
  | cons e rest ih =>
      rcases e with ⟨k', b'⟩
      rw [List.map_cons, List.nodup_cons] at h
      rcases List.mem_cons.mp hm with he | hm
      · rw [← he]
        simp only [List.lookup_cons, beq_self_eq_true]
      · have hne : k ≠ k' := fun e => h.1 (e ▸ List.mem_map.mpr ⟨(k, b), hm, rfl⟩)
        simp only [List.lookup_cons, beq_false_of_ne hne]
        exact ih h.2 hm

theorem mem_of_lookup {α β : Type} [BEq α] [LawfulBEq α] (entries : List (α × β)) (k : α) (b : β)
    (h : entries.lookup k = some b) : (k, b) ∈ entries := by
  rcases List.lookup_eq_some_iff.mp h with ⟨front, back, rfl, _⟩
  exact List.mem_append_right front List.mem_cons_self

theorem nodup_eraseDups {α : Type} [BEq α] [LawfulBEq α] (xs : List α) : xs.eraseDups.Nodup := by
  -- The induction is on the length: what stays behind the first element is a sublist.
  generalize hn : xs.length = n
  induction n using Nat.strongRecOn generalizing xs with
  | ind n ih =>
      cases xs with
      | nil => exact List.nodup_nil
      | cons x rest =>
          rw [List.eraseDups_cons, List.nodup_cons]
          have hlen := List.length_filter_le (fun y => !y == x) rest
          rw [List.length_cons] at hn
          refine ⟨fun hx => ?_, ih _ (by omega) _ rfl⟩
          have hne := (List.mem_filter.mp (List.mem_eraseDups.mp hx)).2
          simp only [beq_self_eq_true, Bool.not_true, Bool.false_eq_true] at hne

/-- One more element counts as a duplicate or comes last. -/
theorem eraseDups_concat {α : Type} [BEq α] [LawfulBEq α] (xs : List α) (x : α) :
    (xs ++ [x]).eraseDups = if x ∈ xs then xs.eraseDups else xs.eraseDups ++ [x] := by
  rw [List.eraseDups_append]
  by_cases hx : x ∈ xs
  · have hnone : [x].removeAll xs = [] := by simp [List.removeAll, hx]
    rw [if_pos hx, hnone, List.eraseDups_nil, List.append_nil]
  · have hkeep : [x].removeAll xs = [x] := by simp [List.removeAll, hx]
    rw [if_neg hx, hkeep]
    rfl

/-- A body that no rule for another variable has is counted in the rule for `v`
    alone. -/
theorem count_flatMap_rules (rules : List Rule) (hkeys : (rules.map Prod.fst).Nodup)
    (v : Variable) (body : Body) (h : ∀ r ∈ rules, r.1 ≠ v → body ∉ r.2) :
    (rules.flatMap Prod.snd).count body = ((rules.lookup v).getD []).count body := by
  induction rules with
  | nil => rfl
  | cons r rest ih =>
      rcases r with ⟨u, bodies⟩
      rw [List.map_cons, List.nodup_cons] at hkeys
      have hrest := ih hkeys.2 fun q hq => h q (List.mem_cons_of_mem _ hq)
      rw [List.flatMap_cons, List.count_append, hrest]
      by_cases hv : u = v
      · -- The rules behind this one are for other variables.
        have hnone : rest.lookup v = none := by
          rw [List.lookup_eq_none_iff]
          intro q hq
          exact bne_iff_ne.mpr fun e => hkeys.1 (List.mem_map.mpr ⟨q, hq, e ▸ hv.symm⟩)
        rw [hnone, ← hv]
        simp only [List.lookup_cons, beq_self_eq_true, Option.getD_none, Option.getD_some,
          List.count_nil, Nat.add_zero]
      · have hne : (v == u) = false := beq_false_of_ne fun e => hv e.symm
        rw [List.count_eq_zero.mpr (h _ List.mem_cons_self hv), Nat.zero_add]
        simp only [List.lookup_cons, hne]

namespace Grammar

@[simp] theorem defined_update (g : Grammar) (v : Variable) (f : List Body → List Body) :
    (g.update v f).defined = if v ∈ g.defined then g.defined else g.defined ++ [v] :=
  map_fst_updateRules v f g.rules

@[simp] theorem alternatives_update (g : Grammar) (v w : Variable) (f : List Body → List Body) :
    (g.update v f).alternatives w =
      if w = v then f (g.alternatives v) else g.alternatives w := by
  simp only [alternatives, update, lookup_updateRules]
  by_cases h : w = v
  · rw [if_pos h, if_pos h, Option.getD_some]
  · rw [if_neg h, if_neg h]

@[simp] theorem defined_pushUnique (g : Grammar) (v : Variable) (body : Body) :
    (g.pushUnique v body).defined = if v ∈ g.defined then g.defined else g.defined ++ [v] :=
  g.defined_update v _

@[simp] theorem alternatives_pushUnique (g : Grammar) (v w : Variable) (body : Body) :
    (g.pushUnique v body).alternatives w =
      if w = v then pushBody body (g.alternatives v) else g.alternatives w :=
  g.alternatives_update v w _

@[simp] theorem contains_iff (g : Grammar) (v : Variable) :
    g.contains v = true ↔ v ∈ g.defined := by
  simp only [contains, List.contains_iff_mem]

/-- A variable has an entry exactly if it is in the grammar. -/
theorem lookup_eq_none_iff (g : Grammar) (v : Variable) :
    g.rules.lookup v = none ↔ v ∉ g.defined := by
  simp only [List.lookup_eq_none_iff, defined, List.mem_map, not_exists, not_and]
  constructor
  · intro h r hr he
    have := h r hr
    rw [he] at this
    simp at this
  · intro h r hr
    have := h r hr
    exact bne_iff_ne.mpr fun e => this e.symm

/-- A rule of the list holds the alternatives of its variable. -/
theorem alternatives_of_mem_rules (g : Grammar) (r : Rule) (h : r ∈ g.rules) :
    g.alternatives r.1 = r.2 := by
  rw [alternatives, lookup_of_mem g.rules g.distinct r.1 r.2 h, Option.getD_some]

theorem mem_alternatives_iff (g : Grammar) (v : Variable) (body : Body) :
    body ∈ g.alternatives v ↔ ∃ r ∈ g.rules, r.1 = v ∧ body ∈ r.2 := by
  constructor
  · intro h
    cases hl : g.rules.lookup v with
    | none =>
        rw [alternatives, hl] at h
        exact absurd h List.not_mem_nil
    | some bodies =>
        rw [alternatives, hl, Option.getD_some] at h
        exact ⟨(v, bodies), mem_of_lookup g.rules v bodies hl, rfl, h⟩
  · intro hx
    rcases hx with ⟨r, hr, rfl, hb⟩
    exact (g.alternatives_of_mem_rules r hr).symm ▸ hb

/-- A variable that is not in the grammar has no alternatives. -/
theorem alternatives_of_not_mem (g : Grammar) (v : Variable) (h : v ∉ g.defined) :
    g.alternatives v = [] := by
  rw [alternatives, (g.lookup_eq_none_iff v).mpr h, Option.getD_none]

/-- A variable with an alternative is in the grammar. -/
theorem mem_defined_of_mem_alternatives (g : Grammar) (v : Variable) (body : Body)
    (h : body ∈ g.alternatives v) : v ∈ g.defined := by
  by_cases hv : v ∈ g.defined
  · exact hv
  · rw [g.alternatives_of_not_mem v hv] at h
    exact absurd h List.not_mem_nil

theorem mem_bodies_iff (g : Grammar) (body : Body) :
    body ∈ g.bodies ↔ ∃ v, body ∈ g.alternatives v := by
  simp only [bodies, List.mem_flatMap, mem_alternatives_iff]
  constructor
  · intro h
    rcases h with ⟨r, hr, hb⟩
    exact ⟨r.1, r, hr, rfl, hb⟩
  · intro h
    rcases h with ⟨_, r, hr, _, hb⟩
    exact ⟨r, hr, hb⟩

theorem occursInBody_iff (g : Grammar) (v : Variable) :
    g.occursInBody v = true ↔ ∃ u, ∃ body ∈ g.alternatives u, .nonterminal v ∈ body := by
  simp only [occursInBody, List.any_eq_true, List.contains_iff_mem, mem_bodies_iff]
  constructor
  · intro h
    rcases h with ⟨body, ⟨u, hb⟩, hv⟩
    exact ⟨u, body, hb, hv⟩
  · intro h
    rcases h with ⟨u, body, hb, hv⟩
    exact ⟨body, ⟨u, hb⟩, hv⟩

theorem occursInBody_eq_false_iff (g : Grammar) (v : Variable) :
    g.occursInBody v = false ↔ ∀ u, ∀ body ∈ g.alternatives u, .nonterminal v ∉ body := by
  rw [Bool.eq_false_iff, Ne, occursInBody_iff]
  constructor
  · exact fun h u body hb hv => h ⟨u, body, hb, hv⟩
  · rintro h ⟨u, body, hb, hv⟩
    exact h u body hb hv

/-- A body that only one variable has occurs as often in the grammar as among the
    alternatives of that variable. -/
theorem count_bodies (g : Grammar) (v : Variable) (body : Body)
    (h : ∀ u, u ≠ v → body ∉ g.alternatives u) :
    g.bodies.count body = (g.alternatives v).count body := by
  refine count_flatMap_rules g.rules g.distinct v body fun r hr hv => ?_
  rw [← g.alternatives_of_mem_rules r hr]
  exact h r.1 hv

@[simp] theorem defined_mapAlternatives (g : Grammar) (f : Variable → List Body → List Body) :
    (g.mapAlternatives f).defined = g.defined := by
  simp only [defined, mapAlternatives, List.map_map]
  rfl

@[simp] theorem alternatives_mapAlternatives (g : Grammar) (f : Variable → List Body → List Body)
    (v : Variable) : (g.mapAlternatives f).alternatives v =
      if v ∈ g.defined then f v (g.alternatives v) else [] := by
  by_cases h : v ∈ g.defined
  · rw [if_pos h]
    rcases List.mem_map.mp h with ⟨r, hr, rfl⟩
    have hmem : (r.1, f r.1 r.2) ∈ (g.mapAlternatives f).rules := List.mem_map_of_mem hr
    rw [g.alternatives_of_mem_rules r hr]
    exact (g.mapAlternatives f).alternatives_of_mem_rules _ hmem
  · rw [if_neg h]
    refine alternatives_of_not_mem _ _ ?_
    rwa [defined_mapAlternatives]

/-- A map that makes nothing out of no alternatives is at work at every variable. -/
theorem alternatives_mapAlternatives_of_nil (g : Grammar) (f : Variable → List Body → List Body)
    (v : Variable) (hf : f v [] = []) :
    (g.mapAlternatives f).alternatives v = f v (g.alternatives v) := by
  by_cases hv : v ∈ g.defined
  · simp [hv]
  · simp [hv, g.alternatives_of_not_mem v hv, hf]

theorem eq_of_rules (g h : Grammar) (hrules : g.rules = h.rules) : g = h := by
  cases g
  cases h
  simp only [mk.injEq]
  exact hrules

theorem rules_eq_map (g : Grammar) : g.rules = g.defined.map fun v => (v, g.alternatives v) := by
  have hentry : ∀ r ∈ g.rules, r = (r.1, g.alternatives r.1) := fun r hr => by
    rw [g.alternatives_of_mem_rules r hr]
  rw [defined, List.map_map]
  exact (List.map_id g.rules).symm.trans (List.map_congr_left hentry)

/-- A grammar is its variables in order together with their alternatives. -/
theorem eq_of_alternatives (g h : Grammar) (hdef : g.defined = h.defined)
    (halt : ∀ v ∈ g.defined, g.alternatives v = h.alternatives v) : g = h := by
  refine eq_of_rules g h ?_
  rw [g.rules_eq_map, h.rules_eq_map, ← hdef]
  exact List.map_congr_left fun v hv => by rw [halt v hv]

/-- Two updates of a variable make one. -/
theorem update_update (g : Grammar) (v : Variable) (f f' : List Body → List Body) :
    (g.update v f).update v f' = g.update v fun bodies => f' (f bodies) := by
  -- The first update has brought the variable in, so the second finds it there.
  have hmem : v ∈ (g.update v f).defined := by
    by_cases hv : v ∈ g.defined <;> simp [hv]
  refine eq_of_alternatives _ _ ?_ fun u _ => ?_
  · rw [defined_update _ v f', if_pos hmem]
    simp
  · by_cases hu : u = v <;> simp [hu]

/-- It is enough to compare the entries of the variables of both grammars: no
    other variable has one. -/
theorem equiv_iff (g h : Grammar) : g.equiv h = true ↔ g.Equiv h := by
  simp only [equiv, Equiv, List.all_eq_true, List.mem_append, beq_iff_eq]
  constructor
  · intro hall v
    by_cases hv : v ∈ g.defined ∨ v ∈ h.defined
    · exact hall v hv
    · have hg := (g.lookup_eq_none_iff v).mpr fun e => hv (Or.inl e)
      have hh := (h.lookup_eq_none_iff v).mpr fun e => hv (Or.inr e)
      rw [hg, hh]
  · exact fun hall v _ => hall v

end Grammar

end Chomsky
