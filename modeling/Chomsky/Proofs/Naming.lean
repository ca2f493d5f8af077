import Chomsky.Proofs.Capture
import Chomsky.Proofs.Unfolding
import Mathlib.Data.List.Perm.Basic

/-!
# Number and Order of the Variables

Which variables a converted grammar has, in which order, and how often the
introduced ones occur.

No stage loses a variable, and the introduced ones come last. Their numbers grow,
since a number is drawn by searching on from the one before. What is left is to
count.

Breaking up long bodies keeps a ledger. Taken together, the pieces of a body have
the symbols of the body and, besides, every chain variable of the body once: it is
added when its link is made and taken up where the chain goes on. What holds for
one body holds for all bodies in a row, so the symbols of the grammar afterwards
are those it had before together with every chain variable once. As no chain
variable occurs in the grammar before, each of them occurs once and no more.
Isolating terminals exchanges terminals for variables of its own, which is of no
account to any other variable.

The variables of isolated terminals follow the terminals in the order in which
these occur first. Erasing duplicates leaves that order behind.

## Main definitions

* `Grammar.symbols`: The symbols of all bodies, one for each occurrence.
* `Grammar.pairedOccurrences`: The terminals in two-symbol bodies, one for each
  occurrence.

## Theorems

* `perm_flatten_pieces_chain`: The ledger of one chain.
* `perm_symbols_eliminateLong`: The ledger of a grammar.
* `count_symbols_eliminateLong`: A chain variable occurs once.
* `count_symbols_isolateTerminals`: Isolation leaves other variables alone.
* `pairwise_idxOf_eraseDups`: Erasing duplicates keeps the order of first
  occurrences.
* `variables_convertGrammar`: The variables of a converted grammar.
-/

namespace Chomsky

namespace Body

/-- The pieces of a chain have the symbols that were chained and the variable of
    every link once. -/
theorem perm_flatten_pieces_chain (first : Symbol) (rest : Body) (names : List Variable) :
    (pieces (chain first rest names)).flatten.Perm
      (first :: rest ++ (chain first rest names).2.map fun l => .nonterminal l.1) := by
  fun_induction chain first rest names with
  | case1 first x y rest v names body tail heq ih =>
      rw [heq] at ih
      rw [List.perm_iff_count]
      intro s
      have hrest := ih.count_eq s
      -- The variable that heads the rest of the chain is that of the new link.
      simp only [pieces, List.map_cons, List.flatten_cons, List.count_append, List.cons_append,
        List.count_cons, List.count_nil] at hrest ⊢
      omega
  | case2 first rest names _ =>
      simp only [pieces, List.map_nil, List.flatten_cons, List.flatten_nil, List.append_nil]
      exact List.Perm.refl _

theorem perm_flatten_pieces_split (names : List Variable) (body : Body) :
    (pieces (body.split names)).flatten.Perm
      (body ++ (body.split names).2.map fun l => .nonterminal l.1) := by
  cases body with
  | nil => exact List.Perm.refl _
  | cons first rest => exact perm_flatten_pieces_chain first rest names

end Body

/-- What holds for the pieces of one body holds for those of all bodies in a row. -/
theorem perm_flatten_pieces_splitBodies (names : List Variable) (bodies : List Body) :
    ((splitBodies names bodies).flatMap Body.pieces).flatten.Perm
      (bodies.flatten ++
        ((splitBodies names bodies).flatMap Prod.snd).map fun l => .nonterminal l.1) := by
  induction bodies generalizing names with
  | nil => exact List.Perm.refl _
  | cons body rest ih =>
      rw [List.perm_iff_count]
      intro s
      have hbody := (Body.perm_flatten_pieces_split names body).count_eq s
      have hrest := (ih (names.drop body.chainLength)).count_eq s
      simp only [splitBodies, List.flatMap_cons, List.flatten_append, List.flatten_cons,
        List.map_append, List.count_append] at hbody hrest ⊢
      omega

theorem chainLengths_eq_sum (bodies : List Body) :
    chainLengths bodies =
      ((bodies.filter fun body => 3 ≤ body.length).map fun body => body.length - 2).sum := by
  induction bodies with
  | nil => rfl
  | cons body rest ih =>
      rw [chainLengths, ih, Body.chainLength]
      by_cases hlong : 3 ≤ body.length
      · rw [List.filter_cons_of_pos (by simpa using hlong), List.map_cons, List.sum_cons]
      · -- A short body takes no name.
        rw [List.filter_cons_of_neg (by simpa using hlong)]
        omega

theorem idxOf_lt_of_idxOf_filter_lt {α : Type} [BEq α] [LawfulBEq α] (p : α → Bool) (xs : List α)
    (a b : α) (ha : p a = true) (hb : p b = true)
    (h : (xs.filter p).idxOf a < (xs.filter p).idxOf b) : xs.idxOf a < xs.idxOf b := by
  induction xs with
  | nil => exact absurd h (Nat.lt_irrefl _)
  | cons x rest ih =>
      by_cases hx : p x = true
      · rw [List.filter_cons_of_pos hx] at h
        by_cases hxb : x = b
        · -- Nothing comes before the first element.
          rw [hxb, List.idxOf_cons_self] at h
          omega
        · rw [List.idxOf_cons_ne rest hxb]
          by_cases hxa : x = a
          · rw [hxa, List.idxOf_cons_self]
            omega
          · rw [List.idxOf_cons_ne _ hxb, List.idxOf_cons_ne _ hxa] at h
            rw [List.idxOf_cons_ne rest hxa]
            have hrest := ih (by omega)
            omega
      · rw [List.filter_cons_of_neg hx] at h
        have hxa : x ≠ a := fun e => hx (e ▸ ha)
        have hxb : x ≠ b := fun e => hx (e ▸ hb)
        have hrest := ih h
        rw [List.idxOf_cons_ne rest hxa, List.idxOf_cons_ne rest hxb]
        omega

/-- Erasing duplicates leaves the elements in the order in which they occur first. -/
theorem pairwise_idxOf_eraseDups {α : Type} [BEq α] [LawfulBEq α] (xs : List α) :
    xs.eraseDups.Pairwise fun a b => xs.idxOf a < xs.idxOf b := by
  -- The induction is on the length, as what stays behind the first element is a sublist.
  generalize hn : xs.length = n
  induction n using Nat.strongRecOn generalizing xs with
  | ind n ih =>
      cases xs with
      | nil => exact List.Pairwise.nil
      | cons x rest =>
          have hlen := List.length_filter_le (fun y => !y == x) rest
          rw [List.length_cons] at hn
          have hrest := ih _ (by omega) (rest.filter fun y => !y == x) rfl
          have hother : ∀ y ∈ (rest.filter fun y => !y == x).eraseDups, (!y == x) = true :=
            fun y hy => (List.mem_filter.mp (List.mem_eraseDups.mp hy)).2
          have hne : ∀ y ∈ (rest.filter fun y => !y == x).eraseDups, x ≠ y := by
            intro y hy he
            have hkept := hother y hy
            rw [he, beq_self_eq_true] at hkept
            exact Bool.false_ne_true hkept
          rw [List.eraseDups_cons, List.pairwise_cons]
          constructor
          · intro y hy
            rw [List.idxOf_cons_self, List.idxOf_cons_ne rest (hne y hy)]
            exact Nat.succ_pos _
          · refine hrest.imp_of_mem fun ha hb hab => ?_
            have hlt := idxOf_lt_of_idxOf_filter_lt _ rest _ _ (hother _ ha) (hother _ hb) hab
            rw [List.idxOf_cons_ne rest (hne _ ha), List.idxOf_cons_ne rest (hne _ hb)]
            exact Nat.succ_lt_succ hlt

namespace Grammar

/-- The symbols of all bodies, one for each occurrence. -/
def symbols (g : Grammar) : Body := g.bodies.flatten

/-- The terminals in two-symbol bodies, one for each occurrence. -/
def pairedOccurrences (g : Grammar) : List Terminal :=
  (g.bodies.filter fun body => body.length = 2).flatten.filterMap Symbol.asTerminal

theorem bodies_eliminateLong (g : Grammar) : g.eliminateLong.bodies =
    (splitBodies g.chainNames g.bodies).map Prod.fst ++ g.links.map Prod.snd := by
  have hchains : (g.chains.flatMap fun r => r.2.map Prod.fst) =
      (splitBodies g.chainNames g.bodies).map Prod.fst := by
    rw [bodies, ← flatMap_splitRules, List.map_flatMap]
    rfl
  have hlinks : (g.links.flatMap fun l => [l.2]) = g.links.map Prod.snd := List.map_eq_flatMap.symm
  rw [bodies, eliminateLong, List.flatMap_append, List.flatMap_map, List.flatMap_map, hchains,
    hlinks]

/-- Breaking up long bodies keeps the symbols of a grammar and adds every chain
    variable once. -/
theorem perm_symbols_eliminateLong (g : Grammar) :
    g.eliminateLong.symbols.Perm (g.symbols ++ g.chainNames.map .nonterminal) := by
  have hpieces : g.eliminateLong.bodies.Perm
      ((splitBodies g.chainNames g.bodies).flatMap Body.pieces) := by
    rw [bodies_eliminateLong, links_eq, List.map_flatMap, List.map_eq_flatMap]
    exact List.flatMap_append_perm _ (fun p : Body × List Link => [p.1]) fun p => p.2.map Prod.snd
  have hnames : (g.links.map fun l => Symbol.nonterminal l.1) = g.chainNames.map .nonterminal := by
    rw [← g.map_fst_links, List.map_map]
    rfl
  have hledger := perm_flatten_pieces_splitBodies g.chainNames g.bodies
  rw [← links_eq, hnames] at hledger
  exact hpieces.flatten.trans hledger

theorem bodies_isolateTerminals (g : Grammar) : g.isolateTerminals.bodies =
    g.bodies.map (Body.isolate g.isolation) ++ g.terminalLinks.map Prod.snd := by
  have hlinks : (g.isolation.flatMap fun p => [[Symbol.terminal p.1]]) =
      g.terminalLinks.map Prod.snd := by
    rw [terminalLinks, List.map_map]
    exact List.map_eq_flatMap.symm
  rw [bodies, isolateTerminals, List.flatMap_append, List.flatMap_map, List.flatMap_map, hlinks,
    bodies, List.map_flatMap]

end Grammar

/-- Isolation makes no occurrence of a variable that the table does not have. -/
theorem Body.count_isolate (table : List (Terminal × Variable)) (v : Variable)
    (hv : v ∉ table.map Prod.snd) (body : Body) :
    (isolate table body).count (.nonterminal v) = body.count (.nonterminal v) := by
  have hsymbol : ∀ s : Symbol, s.isolate table = .nonterminal v ↔ s = .nonterminal v := by
    intro s
    cases s with
    | nonterminal u => exact Iff.rfl
    | terminal t =>
        cases hlookup : table.lookup t with
        | none => simp only [Symbol.isolate, hlookup, reduceCtorEq]
        | some u =>
            have hmem := List.mem_map_of_mem (f := Prod.snd) (mem_of_lookup table t u hlookup)
            have hne : u ≠ v := fun he => hv (he ▸ hmem)
            simp only [Symbol.isolate, hlookup, Symbol.nonterminal.injEq, hne, reduceCtorEq]
  by_cases hlen : body.length = 2
  · rw [isolate, if_pos hlen, List.count_eq_countP, List.countP_map, List.count_eq_countP]
    refine List.countP_congr fun s _ => ?_
    simp only [Function.comp_apply, beq_iff_eq]
    exact hsymbol s
  · rw [isolate, if_neg hlen]

namespace Grammar

/-- Isolating terminals leaves the number of occurrences of every variable as it is,
    those of the terminals apart. -/
theorem count_symbols_isolateTerminals (g : Grammar) (v : Variable) (hv : v ∉ g.terminalNames) :
    g.isolateTerminals.symbols.count (.nonterminal v) = g.symbols.count (.nonterminal v) := by
  have hlinks : (g.terminalLinks.map Prod.snd).flatten.count (.nonterminal v) = 0 := by
    rw [List.count_eq_zero]
    intro hmem
    rcases List.mem_flatten.mp hmem with ⟨body, hb, hin⟩
    rcases List.mem_map.mp hb with ⟨l, hl, rfl⟩
    -- The body of a link is a terminal.
    rcases List.mem_map.mp hl with ⟨p, _, rfl⟩
    exact Symbol.noConfusion (List.mem_singleton.mp hin)
  have hbodies : (g.bodies.map (Body.isolate g.isolation)).flatten.count (.nonterminal v) =
      g.symbols.count (.nonterminal v) := by
    rw [← g.map_snd_isolation] at hv
    rw [symbols, List.count_flatten, List.count_flatten, List.map_map]
    refine congrArg List.sum (List.map_congr_left fun body _ => ?_)
    exact Body.count_isolate g.isolation v hv body
  rw [symbols, bodies_isolateTerminals, List.flatten_append, List.count_append, hbodies, hlinks,
    Nat.add_zero]

/-- A chain variable occurs once after long bodies are broken up. -/
theorem count_symbols_eliminateLong (g : Grammar) (n : Variable) (hn : n ∈ g.chainNames) :
    g.eliminateLong.symbols.count (.nonterminal n) = 1 := by
  have hbefore : g.symbols.count (.nonterminal n) = 0 := by
    rw [List.count_eq_zero]
    intro hmem
    rcases List.mem_flatten.mp hmem with ⟨body, hb, hin⟩
    exact g.not_mem_mentioned_of_mem_chainNames n hn (g.mem_mentioned_of_mem_body body n hb hin)
  have hnames : (g.chainNames.map Symbol.nonterminal).count (.nonterminal n) = 1 := by
    refine List.count_eq_one_of_mem ?_ (List.mem_map_of_mem hn)
    exact (g.nodup_freshVariables 'N' _).map fun _ _ he => Symbol.nonterminal.inj he
  rw [(g.perm_symbols_eliminateLong).count_eq, List.count_append, hbefore, hnames]

theorem map_alternatives_terminalNames (g : Grammar) :
    g.terminalNames.map g.isolateTerminals.alternatives =
      g.pairedTerminals.map fun t => [[.terminal t]] := by
  rw [← g.map_snd_isolation, ← g.map_fst_isolation, List.map_map, List.map_map]
  refine List.map_congr_left fun p hp => ?_
  exact g.alternatives_isolateTerminals_of_mem_links (p.2, [.terminal p.1])
    (List.mem_map_of_mem (f := fun p : Terminal × Variable => (p.2, [Symbol.terminal p.1])) hp)

/-- The numbers of fresh variables increase. -/
theorem exists_numbers_freshVariables (g : Grammar) (letter : Char) (count : Nat) :
    ∃ numbers : List Nat, numbers.Pairwise (· < ·) ∧
      g.freshVariables letter count = numbers.map (freshVariable letter) :=
  ⟨_, pairwise_freeNumbers letter (g.taken letter) count 1, rfl⟩

end Grammar

open Grammar

/-- How the variables of a converted grammar follow each other: those of the grammar
    that was converted, chain variables with the given numbers, and one variable for
    each of the `isolated` terminals. -/
structure VariableOrder (g : Grammar) (c : Conversion) (chain terminal : List Nat)
    (isolated : List Terminal) : Prop where
  chain_increasing : chain.Pairwise (· < ·)
  terminal_increasing : terminal.Pairwise (· < ·)
  defined : c.final.defined =
    g.defined ++ chain.map (freshVariable 'N') ++ terminal.map (freshVariable 'T')
  /-- A body of `n` symbols takes `n - 2` chain variables. -/
  length_chain : chain.length =
    ((c.withoutUnits.bodies.filter fun body => 3 ≤ body.length).map fun body =>
      body.length - 2).sum
  chain_single : ∀ k ∈ chain, ∃ body, c.final.alternatives (freshVariable 'N' k) = [body]
  chain_once : ∀ k ∈ chain, c.final.symbols.count (.nonterminal (freshVariable 'N' k)) = 1
  mem_isolated : ∀ t, t ∈ isolated ↔
    ∃ body ∈ c.binary.bodies, body.length = 2 ∧ .terminal t ∈ body
  /-- The terminals are in the order in which they occur first, none of them twice. -/
  isolated_order : isolated.Pairwise fun s t =>
    c.binary.pairedOccurrences.idxOf s < c.binary.pairedOccurrences.idxOf t
  terminal_bodies : (terminal.map fun k => c.final.alternatives (freshVariable 'T' k)) =
    isolated.map fun t => [[.terminal t]]

/-- A chain variable keeps its only body and its only occurrence to the end. -/
theorem final_of_mem_chainNames (c : Conversion) (hbinary : c.binary = c.withoutUnits.eliminateLong)
    (hfinal : c.final = c.binary.isolateTerminals) (n : Variable)
    (hn : n ∈ c.withoutUnits.chainNames) :
    (∃ body, c.final.alternatives n = [body]) ∧ c.final.symbols.count (.nonterminal n) = 1 := by
  have hdef : n ∈ c.binary.defined := by
    rw [hbinary, defined_eliminateLong]
    exact List.mem_append_right _ hn
  have hother : n ∉ c.binary.terminalNames := fun ht =>
    c.binary.not_mem_mentioned_of_mem_terminalNames n ht (c.binary.mem_mentioned_of_mem_defined n hdef)
  constructor
  · have hsingle := c.withoutUnits.exists_body_of_mem_chainNames n hn
    rcases hsingle with ⟨body, hbody⟩
    rw [← hbinary] at hbody
    refine ⟨Body.isolate c.binary.isolation body, ?_⟩
    rw [hfinal, c.binary.alternatives_isolateTerminals_of_mem_defined n hdef, hbody, List.map_singleton]
  · rw [hfinal, c.binary.count_symbols_isolateTerminals n hother, hbinary]
    exact c.withoutUnits.count_symbols_eliminateLong n hn

/-- The variables of a converted grammar are those it had before, all of them and in
    order, followed by chain variables and variables of isolated terminals, each kind
    with growing numbers. There are as many chain variables as the long bodies take
    without unit productions. Each of them has one alternative and occurs once. The
    terminals that stand in two-symbol bodies without long bodies have one variable
    each, in the order of their first occurrence. -/
theorem variables_convertGrammar (o : Options) (g : Grammar) (c : Conversion)
    (h : convertGrammar o g = .ok c) :
    ∃ chain terminal isolated, VariableOrder g c chain terminal isolated := by
  rcases stages_of_convertGrammar o g c h with ⟨_, _, hbinary, hfinal⟩
  rcases c.withoutUnits.exists_numbers_freshVariables 'N' (chainLengths c.withoutUnits.bodies) with
    ⟨chain, hchain, hchainNames⟩
  rcases c.binary.exists_numbers_freshVariables 'T' c.binary.pairedTerminals.length with
    ⟨terminal, hterminal, hterminalNames⟩
  have hlength := c.withoutUnits.length_chainNames
  rw [chainNames, hchainNames, List.length_map] at hlength
  have hmem : ∀ k ∈ chain, freshVariable 'N' k ∈ c.withoutUnits.chainNames := by
    intro k hk
    rw [chainNames, hchainNames]
    exact List.mem_map_of_mem hk
  refine ⟨chain, terminal, c.binary.pairedTerminals, hchain, hterminal, ?_, ?_,
    fun k hk => (final_of_mem_chainNames c hbinary hfinal _ (hmem k hk)).1,
    fun k hk => (final_of_mem_chainNames c hbinary hfinal _ (hmem k hk)).2,
    c.binary.mem_pairedTerminals_iff, pairwise_idxOf_eraseDups c.binary.pairedOccurrences, ?_⟩
  · rw [defined_final o g c h, chainNames, hchainNames, terminalNames, hterminalNames,
      List.append_assoc]
  · rw [hlength, chainLengths_eq_sum]
  · have hbodies := c.binary.map_alternatives_terminalNames
    rw [terminalNames, hterminalNames, List.map_map, ← hfinal] at hbodies
    exact hbodies

/-- A body of four symbols of which one can be left out, a variable that is left
    without alternatives, and names that are taken. -/
def spareNames : Grammar := ofRules [
  (⟨"S"⟩, [[.terminal ⟨"a"⟩, .nonterminal ⟨"A"⟩, .terminal ⟨"c"⟩, .terminal ⟨"d"⟩],
    [.nonterminal ⟨"N2"⟩, .terminal ⟨"b"⟩]]),
  (⟨"E"⟩, [[.epsilon]]),
  (⟨"A"⟩, [[.terminal ⟨"b"⟩, .nonterminal ⟨"A"⟩, .nonterminal ⟨"T1"⟩], [.epsilon]])]

theorem variables_spareNames :
    ∃ c, convertGrammar {} spareNames = .ok c ∧
      c.final.defined = [⟨"S"⟩, ⟨"E"⟩, ⟨"A"⟩, ⟨"N1"⟩, ⟨"N3"⟩, ⟨"N4"⟩, ⟨"N5"⟩,
        ⟨"T2"⟩, ⟨"T3"⟩, ⟨"T4"⟩, ⟨"T5"⟩] ∧
      ∃ chain terminal isolated, VariableOrder spareNames c chain terminal isolated ∧
        chain.length = 4 ∧ ⟨"d"⟩ ∈ isolated := by
  refine ⟨_, rfl, by decide, ?_⟩
  rcases variables_convertGrammar {} spareNames _ rfl with ⟨chain, terminal, isolated, H⟩
  refine ⟨chain, terminal, isolated, H, H.length_chain.trans (by decide), (H.mem_isolated _).mpr ?_⟩
  exact ⟨[.nonterminal ⟨"N3"⟩, .terminal ⟨"d"⟩], by decide, rfl, by decide⟩

end Chomsky
