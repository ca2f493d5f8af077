import Chomsky.Isolation
import Chomsky.Proofs.Abbreviation

/-!
# Isolated Terminals as Abbreviations

Isolating terminals abbreviates a grammar as well, and in the simplest way: each
link stands for one terminal and uses no variable at all. Reading the table
backwards takes a two-symbol body to what it was, so no variable of the grammar
gains or loses a word.

Afterwards every two-symbol body has variables only, and the bodies of any other
length are those the grammar had, up to the links.

## Main definitions

* `Grammar.terminalLinks`: The table of isolated terminals as links.

## Theorems

* `mem_pairedTerminals_iff`: The terminals that are isolated.
* `expand_isolate`: Expanding an isolated body gives the body back.
* `abbreviates_isolateTerminals`: Isolating terminals abbreviates.
* `language_isolateTerminals_of_not_mem`: It keeps the words of the other
  variables.
* `of_mem_alternatives_isolateTerminals`: The bodies afterwards.
* `count_alternatives_isolateTerminals`: The bodies that occur as often as before.
-/

namespace Chomsky

/-- Links without variables in their bodies are straight. -/
theorem straight_of_terminals (links : List Link) (hnodup : (links.map Prod.fst).Nodup)
    (h : ∀ l ∈ links, ∀ v, .nonterminal v ∉ l.2) : Straight links := by
  induction links with
  | nil => exact Straight.nil
  | cons l rest ih =>
      rw [List.map_cons, List.nodup_cons] at hnodup
      have hl := h l List.mem_cons_self
      refine Straight.cons l rest (hl l.1) (fun m hm => ⟨fun e => hnodup.1 ?_, hl m.1⟩) ?_
      · exact e ▸ List.mem_map_of_mem hm
      · exact ih hnodup.2 fun m hm => h m (List.mem_cons_of_mem l hm)

theorem Body.expand_map (links : List Link) (f : Symbol → Symbol) (body : Body)
    (h : ∀ s ∈ body, expand links [f s] = [s]) : expand links (body.map f) = body := by
  induction body with
  | nil => exact expand_nil links
  | cons s rest ih =>
      have hrest := ih fun r hr => h r (List.mem_cons_of_mem s hr)
      rw [List.map_cons, ← List.singleton_append, expand_append, h s List.mem_cons_self, hrest,
        List.singleton_append]

namespace Body

theorem length_isolate (table : List (Terminal × Variable)) (body : Body) :
    (isolate table body).length = body.length := by
  unfold isolate
  split
  · exact List.length_map _
  · rfl

/-- A body of another length than two is neither changed nor made by isolation. -/
theorem isolate_eq_iff (table : List (Terminal × Variable)) (body short : Body)
    (h : short.length ≠ 2) : isolate table body = short ↔ body = short := by
  by_cases hlen : body.length = 2
  · constructor
    · intro he
      rw [← he, length_isolate] at h
      exact absurd hlen h
    · intro he
      exact absurd (he ▸ hlen) h
  · rw [isolate, if_neg hlen]

end Body

namespace Grammar

theorem not_mem_mentioned_of_mem_terminalNames (g : Grammar) (n : Variable)
    (h : n ∈ g.terminalNames) : n ∉ g.mentioned :=
  g.not_mem_mentioned_of_mem_freshVariables 'T' g.pairedTerminals.length n h

theorem mem_pairedTerminals_iff (g : Grammar) (t : Terminal) :
    t ∈ g.pairedTerminals ↔ ∃ body ∈ g.bodies, body.length = 2 ∧ .terminal t ∈ body := by
  simp only [pairedTerminals, List.mem_eraseDups, List.mem_filterMap, List.mem_flatten,
    List.mem_filter, decide_eq_true_eq]
  constructor
  · intro h
    rcases h with ⟨s, ⟨body, ⟨hb, hlen⟩, hs⟩, ht⟩
    cases s with
    | terminal t' => exact ⟨body, hb, hlen, Option.some.inj ht ▸ hs⟩
    | nonterminal v => exact absurd ht (by simp only [Symbol.asTerminal, reduceCtorEq,
        not_false_eq_true])
  · intro h
    rcases h with ⟨body, hb, hlen, ht⟩
    exact ⟨.terminal t, ⟨body, ⟨hb, hlen⟩, ht⟩, rfl⟩

theorem exists_lookup_isolation (g : Grammar) (t : Terminal) (ht : t ∈ g.pairedTerminals) :
    ∃ v ∈ g.terminalNames, g.isolation.lookup t = some v := by
  cases hlookup : g.isolation.lookup t with
  | none =>
      rw [List.lookup_eq_none_iff] at hlookup
      rw [← g.map_fst_isolation] at ht
      rcases List.mem_map.mp ht with ⟨p, hp, rfl⟩
      exact absurd (hlookup p hp) (by simp)
  | some v =>
      refine ⟨v, ?_, rfl⟩
      rw [← g.map_snd_isolation]
      exact List.mem_map_of_mem (mem_of_lookup g.isolation t v hlookup)

/-- The variables of isolated terminals with their bodies. -/
def terminalLinks (g : Grammar) : List Link := g.isolation.map fun p => (p.2, [.terminal p.1])

@[simp] theorem map_fst_terminalLinks (g : Grammar) :
    g.terminalLinks.map Prod.fst = g.terminalNames := by
  rw [terminalLinks, List.map_map, ← g.map_snd_isolation]
  rfl

theorem not_mem_mentioned_of_mem_terminalLinks (g : Grammar) (l : Link)
    (hl : l ∈ g.terminalLinks) : l.1 ∉ g.mentioned := by
  refine g.not_mem_mentioned_of_mem_terminalNames l.1 ?_
  rw [← map_fst_terminalLinks]
  exact List.mem_map_of_mem hl

theorem straight_terminalLinks (g : Grammar) : Straight g.terminalLinks := by
  refine straight_of_terminals g.terminalLinks ?_ fun l hl v hv => ?_
  · rw [map_fst_terminalLinks]
    exact g.nodup_freshVariables 'T' g.pairedTerminals.length
  · rcases List.mem_map.mp hl with ⟨p, _, rfl⟩
    exact Symbol.noConfusion (List.mem_singleton.mp hv)

theorem expand_terminalLinks_of_mem_body (g : Grammar) (body : Body) (hb : body ∈ g.bodies)
    (v : Variable) (hv : .nonterminal v ∈ body) :
    Body.expand g.terminalLinks [.nonterminal v] = [.nonterminal v] := by
  refine Abbreviates.expand_of_not_link v fun hlink => ?_
  rw [map_fst_terminalLinks] at hlink
  exact g.not_mem_mentioned_of_mem_terminalNames v hlink (g.mem_mentioned_of_mem_body body v hb hv)

theorem expand_isolate (g : Grammar) (body : Body) (hb : body ∈ g.bodies) :
    Body.expand g.terminalLinks (Body.isolate g.isolation body) = body := by
  by_cases hlen : body.length = 2
  · rw [Body.isolate, if_pos hlen]
    refine Body.expand_map g.terminalLinks _ body fun s hs => ?_
    cases s with
    | nonterminal v => exact g.expand_terminalLinks_of_mem_body body hb v hs
    | terminal t =>
        have ht := (g.mem_pairedTerminals_iff t).mpr ⟨body, hb, hlen, hs⟩
        rcases g.exists_lookup_isolation t ht with ⟨v, _, hv⟩
        have hlink : (v, [.terminal t]) ∈ g.terminalLinks :=
          List.mem_map_of_mem (f := fun p : Terminal × Variable => (p.2, [Symbol.terminal p.1]))
            (mem_of_lookup g.isolation t v hv)
        -- The variable that the table has for the terminal expands to it again.
        simp only [Symbol.isolate, hv]
        rw [expand_link g.terminalLinks g.straight_terminalLinks _ hlink, Body.expand_terminal]
  · -- The body stays, and it mentions no link.
    rw [Body.isolate, if_neg hlen]
    exact g.expand_of_not_mentioned _ g.not_mem_mentioned_of_mem_terminalLinks body hb

@[simp] theorem defined_isolateTerminals (g : Grammar) :
    g.isolateTerminals.defined = g.defined ++ g.terminalNames := by
  rw [defined, isolateTerminals, List.map_append, List.map_map, List.map_map,
    ← g.map_snd_isolation]
  rfl

theorem alternatives_isolateTerminals_of_mem_defined (g : Grammar) (v : Variable)
    (hv : v ∈ g.defined) : g.isolateTerminals.alternatives v =
      (g.alternatives v).map (Body.isolate g.isolation) := by
  rcases List.mem_map.mp hv with ⟨r, hr, rfl⟩
  rw [g.alternatives_of_mem_rules r hr]
  exact g.isolateTerminals.alternatives_of_mem_rules (r.1, r.2.map (Body.isolate g.isolation))
    (List.mem_append_left _
      (List.mem_map_of_mem (f := fun r : Rule => (r.1, r.2.map (Body.isolate g.isolation))) hr))

theorem alternatives_isolateTerminals_of_mem_links (g : Grammar) (l : Link)
    (hl : l ∈ g.terminalLinks) : g.isolateTerminals.alternatives l.1 = [l.2] := by
  rcases List.mem_map.mp hl with ⟨p, hp, rfl⟩
  exact g.isolateTerminals.alternatives_of_mem_rules (p.2, [[.terminal p.1]])
    (List.mem_append_right _
      (List.mem_map_of_mem
        (f := fun p : Terminal × Variable => (p.2, [[Symbol.terminal p.1]])) hp))

/-- The variables of isolated terminals abbreviate them. -/
theorem abbreviates_isolateTerminals (g : Grammar) :
    Abbreviates g.isolateTerminals g g.terminalLinks where
  straight := g.straight_terminalLinks
  nonempty l hl := by
    rcases List.mem_map.mp hl with ⟨p, _, rfl⟩
    exact List.cons_ne_nil _ _
  fresh := g.not_mem_mentioned_of_mem_terminalLinks
  single := g.alternatives_isolateTerminals_of_mem_links
  expanded v hv := by
    by_cases hdef : v ∈ g.defined
    · have hid : ∀ body ∈ g.alternatives v,
          (Body.expand g.terminalLinks ∘ Body.isolate g.isolation) body = id body :=
        fun body hb => g.expand_isolate body ((g.mem_bodies_iff body).mpr ⟨v, hb⟩)
      rw [g.alternatives_isolateTerminals_of_mem_defined v hdef, List.map_map,
        List.map_congr_left hid, List.map_id]
    · rw [g.alternatives_of_not_mem v hdef, g.isolateTerminals.alternatives_of_not_mem v,
        List.map_nil]
      rw [defined_isolateTerminals, ← map_fst_terminalLinks, List.mem_append, not_or]
      exact ⟨hdef, hv⟩

/-- Isolating terminals neither adds nor loses a word of a variable other than
    those of the terminals. -/
theorem language_isolateTerminals_of_not_mem (g : Grammar) (v : Variable)
    (hv : v ∉ g.terminalNames) : g.isolateTerminals.language v = g.language v := by
  refine g.abbreviates_isolateTerminals.language_eq_of_abbreviates v ?_
  rwa [map_fst_terminalLinks]

/-- Two variables that were in a body before or belong to isolated terminals. -/
def IsPair (g : Grammar) (pair : Body) : Prop :=
  pair.length = 2 ∧ ∀ s ∈ pair, ∃ u, s = .nonterminal u ∧
    ((∃ body ∈ g.bodies, .nonterminal u ∈ body) ∨ u ∈ g.terminalNames)

theorem isPair_isolate (g : Grammar) (body : Body) (hb : body ∈ g.bodies)
    (hlen : body.length = 2) : g.IsPair (Body.isolate g.isolation body) := by
  refine ⟨(Body.length_isolate g.isolation body).trans hlen, fun s hs => ?_⟩
  rw [Body.isolate, if_pos hlen] at hs
  rcases List.mem_map.mp hs with ⟨r, hr, rfl⟩
  cases r with
  | nonterminal u => exact ⟨u, rfl, Or.inl ⟨body, hb, hr⟩⟩
  | terminal t =>
      have ht := (g.mem_pairedTerminals_iff t).mpr ⟨body, hb, hlen, hr⟩
      rcases g.exists_lookup_isolation t ht with ⟨u, hu, hlookup⟩
      refine ⟨u, ?_, Or.inr hu⟩
      simp only [Symbol.isolate, hlookup]

/-- A body of another length than two is left alone. A two-symbol body comes out
    with variables only, and the rest are the isolated terminals themselves. -/
theorem of_mem_alternatives_isolateTerminals (g : Grammar) (v : Variable) (body : Body)
    (h : body ∈ g.isolateTerminals.alternatives v) :
    body ∈ g.alternatives v ∧ body.length ≠ 2 ∨ g.IsPair body ∨
      ∃ t ∈ g.pairedTerminals, body = [.terminal t] := by
  have hv := g.isolateTerminals.mem_defined_of_mem_alternatives v body h
  rw [defined_isolateTerminals] at hv
  rcases List.mem_append.mp hv with hv | hv
  · rw [g.alternatives_isolateTerminals_of_mem_defined v hv] at h
    rcases List.mem_map.mp h with ⟨old, hold, rfl⟩
    by_cases hlen : old.length = 2
    · exact Or.inr (Or.inl (g.isPair_isolate old ((g.mem_bodies_iff old).mpr ⟨v, hold⟩) hlen))
    · rw [Body.isolate, if_neg hlen]
      exact Or.inl ⟨hold, hlen⟩
  · rw [← map_fst_terminalLinks] at hv
    rcases List.mem_map.mp hv with ⟨l, hl, rfl⟩
    rw [g.alternatives_isolateTerminals_of_mem_links l hl, List.mem_singleton] at h
    rcases List.mem_map.mp hl with ⟨p, hp, rfl⟩
    refine Or.inr (Or.inr ⟨p.1, ?_, h⟩)
    rw [← g.map_fst_isolation]
    exact List.mem_map_of_mem hp

/-- Bodies of another length than two are neither added nor lost, those of the
    isolated terminals apart. -/
theorem count_alternatives_isolateTerminals (g : Grammar) (v : Variable) (short : Body)
    (hshort : short.length ≠ 2) (hnew : ∀ t ∈ g.pairedTerminals, short ≠ [.terminal t]) :
    (g.isolateTerminals.alternatives v).count short = (g.alternatives v).count short := by
  by_cases hdef : v ∈ g.defined
  · rw [g.alternatives_isolateTerminals_of_mem_defined v hdef, List.count_eq_countP,
      List.countP_map, List.count_eq_countP]
    refine List.countP_congr fun body _ => ?_
    simp only [Function.comp_apply, beq_iff_eq]
    exact Body.isolate_eq_iff g.isolation body short hshort
  · rw [g.alternatives_of_not_mem v hdef, List.count_nil, List.count_eq_zero]
    intro hmem
    rcases g.of_mem_alternatives_isolateTerminals v short hmem with
      ⟨hmem, _⟩ | ⟨hlen, _⟩ | ⟨t, ht, he⟩
    · exact hdef (g.mem_defined_of_mem_alternatives v short hmem)
    · exact hshort hlen
    · exact hnew t ht he

end Grammar

end Chomsky
