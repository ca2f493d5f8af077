import Chomsky.Proofs.Drawing

/-!
# Unfolding Introduced Variables

Breaking up long bodies and isolating terminals lose nothing: the grammar before
the stage can be read off the grammar after it.

To read it off, take the variables of the old grammar only and replace every
introduced variable in their bodies by its only alternative, again and again until
none is left. Replacing is a recursion that no grammar has to end by itself, as
introduced variables may well refer to each other in a circle. So it is given a
depth, and what has to be shown is that some depth is enough and that a greater
one changes nothing.

Both come from a rank. Every introduced variable has a number, and the
introduced variables in its alternative have smaller ones. Then unfolding deeper
than all ranks is expansion, of which it is known already that it takes the bodies
back to what they were. For chains the rank is the place among the links. For
isolated terminals all ranks are zero, and the depth one is enough.

## Main definitions

* `Grammar.shorthand`: The only alternative of an introduced variable.
* `Body.unfold`: A body with introduced variables replaced, to a depth.
* `Grammar.unfold`: The other variables of a grammar with their bodies unfolded.

## Theorems

* `unfold_eq_expand`: Unfolding deeper than all ranks is expansion.
* `idxOf_lt_of_straight`: The place of a link is a rank.
* `unfold_of_abbreviates`: Unfolding an abbreviated grammar gives the other one.
* `unfold_introduced`: Both stages are undone by unfolding.
-/

namespace Chomsky

/-- A body with every variable that is short for a body replaced by that body, in
    which such variables are replaced in turn, to the given depth. -/
def Body.unfold (short : Variable → Option Body) : (depth : Nat) → Body → Body
  | 0, body => body
  | depth + 1, body => body.flatMap fun s =>
      match s.asVariable.bind short with
      | some block => unfold short depth block
      | none => [s]

namespace Grammar

/-- The only alternative of a variable, if it is one of the given variables and
    has exactly one. -/
def shorthand (h : Grammar) (names : List Variable) (v : Variable) : Option Body :=
  if names.contains v then
    match h.alternatives v with
    | [body] => some body
    | _ => none
  else none

/-- The grammar without the given variables, which are unfolded in the bodies of
    the others. -/
def unfold (h : Grammar) (names : List Variable) (depth : Nat) : Grammar where
  rules := (h.rules.filter fun r => !names.contains r.1).map fun r =>
    (r.1, r.2.map (Body.unfold (h.shorthand names) depth))
  distinct := by
    rw [List.map_map]
    exact (List.filter_sublist.map Prod.fst).nodup h.distinct

theorem shorthand_of_mem (h : Grammar) (names : List Variable) (v : Variable) (body : Body)
    (hv : v ∈ names) (halt : h.alternatives v = [body]) : h.shorthand names v = some body := by
  rw [shorthand, if_pos (List.contains_iff_mem.mpr hv), halt]

theorem shorthand_of_not_mem (h : Grammar) (names : List Variable) (v : Variable)
    (hv : v ∉ names) : h.shorthand names v = none := by
  rw [shorthand, if_neg fun hc => hv (List.contains_iff_mem.mp hc)]

theorem defined_unfold (h : Grammar) (names : List Variable) (depth : Nat) :
    (h.unfold names depth).defined = h.defined.filter fun v => !names.contains v := by
  rw [defined, unfold, List.map_map, defined, List.filter_map]
  rfl

theorem alternatives_unfold (h : Grammar) (names : List Variable) (depth : Nat) (v : Variable)
    (hv : v ∈ h.defined) (hn : v ∉ names) : (h.unfold names depth).alternatives v =
      (h.alternatives v).map (Body.unfold (h.shorthand names) depth) := by
  rcases List.mem_map.mp hv with ⟨r, hr, rfl⟩
  have hkeep : r ∈ h.rules.filter fun r => !names.contains r.1 := by
    refine List.mem_filter.mpr ⟨hr, ?_⟩
    rw [Bool.not_eq_true', ← Bool.not_eq_true, List.contains_iff_mem]
    exact hn
  have hmem : (r.1, r.2.map (Body.unfold (h.shorthand names) depth)) ∈
      (h.unfold names depth).rules :=
    List.mem_map_of_mem (f := fun r : Rule => (r.1, r.2.map (Body.unfold (h.shorthand names) depth)))
      hkeep
  rw [h.alternatives_of_mem_rules r hr]
  exact (h.unfold names depth).alternatives_of_mem_rules _ hmem

end Grammar

theorem Body.expand_eq_flatMap (links : List Link) (body : Body) :
    expand links body = body.flatMap fun s => expand links [s] := by
  induction body with
  | nil => rw [expand_nil, List.flatMap_nil]
  | cons s rest ih => rw [← List.singleton_append, expand_append, ih, List.flatMap_append,
      List.flatMap_singleton]

/-- The place among the links is a rank: the variables in the body of a link
    come before it. -/
theorem idxOf_lt_of_straight (links : List Link) (h : Straight links) (l m : Link)
    (hl : l ∈ links) (hm : m ∈ links) (hmem : .nonterminal m.1 ∈ l.2) :
    (links.map Prod.fst).idxOf m.1 < (links.map Prod.fst).idxOf l.1 := by
  induction h with
  | nil => exact absurd hl List.not_mem_nil
  | cons k rest own later _ ih =>
      rw [List.map_cons]
      rcases List.mem_cons.mp hl with rfl | hl
      · -- The first link uses no link at all.
        rcases List.mem_cons.mp hm with rfl | hm
        · exact absurd hmem own
        · exact absurd hmem (later m hm).2
      · rw [List.idxOf_cons_ne _ fun e => (later l hl).1 e.symm]
        rcases List.mem_cons.mp hm with rfl | hm
        · rw [List.idxOf_cons_self]
          exact Nat.succ_pos _
        · rw [List.idxOf_cons_ne _ fun e => (later m hm).1 e.symm]
          exact Nat.succ_lt_succ (ih hl hm)

namespace Abbreviates

variable {h g : Grammar} {links : List Link}

/-- Unfolding deeper than the ranks of the links is expansion. -/
theorem unfold_eq_expand (H : Abbreviates h g links) (rank : Variable → Nat)
    (hrank : ∀ l ∈ links, ∀ m ∈ links, .nonterminal m.1 ∈ l.2 → rank m.1 < rank l.1)
    (depth : Nat) (body : Body)
    (hdepth : ∀ l ∈ links, .nonterminal l.1 ∈ body → rank l.1 < depth) :
    Body.unfold (h.shorthand (links.map Prod.fst)) depth body = Body.expand links body := by
  induction depth generalizing body with
  | zero =>
      -- No rank is below zero, so there is nothing to replace.
      exact (Body.expand_of_not_mem links body fun l hl hmem =>
        Nat.not_lt_zero _ (hdepth l hl hmem)).symm
  | succ depth ih =>
      rw [Body.unfold, Body.expand_eq_flatMap]
      refine List.flatMap_congr fun s hs => ?_
      cases s with
      | terminal t => exact (Body.expand_terminal links t).symm
      | nonterminal v =>
          by_cases hv : v ∈ links.map Prod.fst
          · rcases List.mem_map.mp hv with ⟨l, hl, rfl⟩
            have hshort := h.shorthand_of_mem _ l.1 l.2 hv (H.single l hl)
            have hblock := ih l.2 fun m hm hmem => by
              have hlower := hrank l hl m hm hmem
              have hlimit := hdepth l hl hs
              omega
            simp only [Symbol.asVariable, Option.bind_some, hshort]
            rw [hblock, expand_link links H.straight l hl]
          · simp only [Symbol.asVariable, Option.bind_some, h.shorthand_of_not_mem _ v hv]
            exact (expand_of_not_link v hv).symm

/-- A grammar with links on top of another one unfolds to it, to any depth beyond
    the ranks of the links. -/
theorem unfold_of_abbreviates (H : Abbreviates h g links)
    (hdef : h.defined = g.defined ++ links.map Prod.fst) (rank : Variable → Nat)
    (hrank : ∀ l ∈ links, ∀ m ∈ links, .nonterminal m.1 ∈ l.2 → rank m.1 < rank l.1)
    (depth : Nat) (hdepth : ∀ l ∈ links, rank l.1 < depth) :
    h.unfold (links.map Prod.fst) depth = g := by
  have hnew : ∀ v ∈ g.defined, v ∉ links.map Prod.fst := fun v hv hlink => by
    rcases List.mem_map.mp hlink with ⟨l, hl, rfl⟩
    exact H.fresh l hl (g.mem_mentioned_of_mem_defined l.1 hv)
  have hkept : (h.unfold (links.map Prod.fst) depth).defined = g.defined := by
    rw [Grammar.defined_unfold, hdef, List.filter_append]
    have hold : (g.defined.filter fun v => !(links.map Prod.fst).contains v) = g.defined := by
      refine List.filter_eq_self.mpr fun v hv => ?_
      rw [Bool.not_eq_true', ← Bool.not_eq_true, List.contains_iff_mem]
      exact hnew v hv
    have hgone : ((links.map Prod.fst).filter fun v => !(links.map Prod.fst).contains v) = [] := by
      refine List.filter_eq_nil_iff.mpr fun v hv => ?_
      rw [List.contains_iff_mem.mpr hv]
      exact Bool.false_ne_true
    rw [hold, hgone, List.append_nil]
  refine Grammar.eq_of_alternatives _ g hkept fun v hv => ?_
  rw [hkept] at hv
  have hvh : v ∈ h.defined := hdef ▸ List.mem_append_left _ hv
  rw [h.alternatives_unfold _ depth v hvh (hnew v hv), ← H.expanded v (hnew v hv)]
  exact List.map_congr_left fun body _ =>
    H.unfold_eq_expand rank hrank depth body fun l hl _ => hdepth l hl

end Abbreviates

namespace Grammar

theorem unfold_eliminateLong (g : Grammar) (depth : Nat) (hdepth : g.chainNames.length ≤ depth) :
    g.eliminateLong.unfold g.chainNames depth = g := by
  have H := g.abbreviates_eliminateLong
  rw [← g.map_fst_links] at hdepth ⊢
  refine H.unfold_of_abbreviates ?_ (fun v => (g.links.map Prod.fst).idxOf v)
    (fun l hl m hm hmem => idxOf_lt_of_straight g.links H.straight l m hl hm hmem) depth
    fun l hl => ?_
  · rw [g.map_fst_links]
    exact g.defined_eliminateLong
  · have hplace := List.idxOf_lt_length_iff.mpr (List.mem_map_of_mem (f := Prod.fst) hl)
    omega

theorem unfold_isolateTerminals (g : Grammar) (depth : Nat) (hdepth : 1 ≤ depth) :
    g.isolateTerminals.unfold g.terminalNames depth = g := by
  have H := g.abbreviates_isolateTerminals
  rw [← g.map_fst_terminalLinks]
  refine H.unfold_of_abbreviates ?_ (fun _ => 0) (fun l hl m _ hmem => ?_) depth
    fun _ _ => hdepth
  · rw [g.map_fst_terminalLinks]
    exact g.defined_isolateTerminals
  · -- The body of a link is a terminal.
    rcases List.mem_map.mp hl with ⟨p, _, rfl⟩
    exact Symbol.noConfusion (List.mem_singleton.mp hmem)

theorem exists_body_of_mem_chainNames (g : Grammar) (n : Variable) (hn : n ∈ g.chainNames) :
    ∃ body, g.eliminateLong.alternatives n = [body] := by
  rw [← g.map_fst_links] at hn
  rcases List.mem_map.mp hn with ⟨l, hl, rfl⟩
  exact ⟨l.2, g.alternatives_eliminateLong_of_mem_links l hl⟩

/-- Both stages are undone by unfolding. Every introduced variable has a single
    alternative, which is a terminal in the case of isolation. When the introduced
    variables are replaced by their alternatives, recursively as often as there are
    introduced variables or more often, the bodies of the other variables are those
    of the grammar before the stage, with the same variables and alternatives in
    the same order. For isolated terminals it is enough to replace once. Either stage is
    what a loop makes of the grammar that goes through the bodies and calls for a name
    where it needs one. -/
theorem unfold_introduced (g : Grammar) :
    (∀ n ∈ g.eliminateLong.introduced g, ∃ body, g.eliminateLong.alternatives n = [body]) ∧
    (∀ depth, (g.eliminateLong.introduced g).length ≤ depth →
      g.eliminateLong.unfold (g.eliminateLong.introduced g) depth = g) ∧
    (∀ n ∈ g.isolateTerminals.introduced g,
      ∃ t, g.isolateTerminals.alternatives n = [[.terminal t]]) ∧
    (∀ depth, 1 ≤ depth →
      g.isolateTerminals.unfold (g.isolateTerminals.introduced g) depth = g) ∧
    g.chainAll = g.eliminateLong ∧ g.isolateAll = g.isolateTerminals := by
  rw [introduced_eliminateLong, introduced_isolateTerminals]
  exact ⟨g.exists_body_of_mem_chainNames, g.unfold_eliminateLong,
    g.exists_terminal_of_mem_terminalNames, g.unfold_isolateTerminals, g.chainAll_eq,
    g.isolateAll_eq⟩

theorem unfold_partlyNumbered :
    partlyNumbered.eliminateLong.unfold [⟨"N2"⟩, ⟨"N3"⟩] 2 = partlyNumbered ∧
    partlyNumbered.isolateTerminals.unfold [⟨"T1"⟩, ⟨"T2"⟩] 1 = partlyNumbered := by
  have h := unfold_introduced partlyNumbered
  have hlong : partlyNumbered.eliminateLong.introduced partlyNumbered = [⟨"N2"⟩, ⟨"N3"⟩] := by
    decide
  have hterminals : partlyNumbered.isolateTerminals.introduced partlyNumbered =
      [⟨"T1"⟩, ⟨"T2"⟩] := by decide
  rw [hlong, hterminals] at h
  exact ⟨h.2.1 2 (Nat.le_refl 2), h.2.2.2.1 1 (Nat.le_refl 1)⟩

end Grammar

end Chomsky
