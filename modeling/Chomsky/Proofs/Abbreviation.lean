import Chomsky.Binary
import Chomsky.Proofs.Language

/-!
# Abbreviations

Breaking up long bodies and isolating terminals both introduce variables with a
single body. Such a variable is short for its body and nothing else. This module
says once what that means and why it leaves the languages alone.

The introduced variables form a list of links, each a variable with its body. A
link may use the variables of earlier links, as a chain does, but never its own
or that of a later one. Replacing the variables by their bodies, the last one
first, therefore leaves none of them behind. This is expansion.

Suppose expansion takes the bodies of one grammar to those of another. Then a
variable derives in the first what its expansion derives in the second. One half
compares the languages of the first grammar with the second, where an expansion
has the words of the body it came from, because each link is an equation between
languages. The other half reads an interpretation of the links off the second
grammar. Since an expanded link is an expanded body, that interpretation solves
the equations as well.

## Main definitions

* `Body.substitute`: One variable replaced by a block of symbols.
* `Body.expand`: All links replaced, the last one first.
* `Straight`: No link uses its own variable or a later one.
* `Abbreviates`: A grammar that is another one up to links.

## Theorems

* `expand_link`: A link and its body have the same expansion.
* `language_expand`: Expansion keeps the words if the links are equations.
* `language_eq_expand`: What a variable derives in an abbreviated grammar.
* `language_eq_of_abbreviates`: The variables that are no links keep their words.
-/

namespace Chomsky

/-- A symbol, or the block in its place if it is the given variable. -/
def Symbol.substitute (v : Variable) (block : Body) (s : Symbol) : Body :=
  if s = .nonterminal v then block else [s]

namespace Body

/-- A body with a block in place of every occurrence of a variable. -/
def substitute (v : Variable) (block body : Body) : Body :=
  body.flatMap (Symbol.substitute v block)

/-- A body with the variables of all links replaced by their bodies, the last
    link first. -/
def expand : List Link → Body → Body
  | [], body => body
  | l :: rest, body => substitute l.1 l.2 (expand rest body)

theorem substitute_self (v : Variable) (block : Body) :
    substitute v block [.nonterminal v] = block := by
  simp only [substitute, List.flatMap_cons, List.flatMap_nil, Symbol.substitute, if_true,
    List.append_nil]

theorem substitute_of_not_mem (v : Variable) (block body : Body) (h : .nonterminal v ∉ body) :
    substitute v block body = body := by
  induction body with
  | nil => rfl
  | cons s rest ih =>
      rw [List.mem_cons, not_or] at h
      have hs : s ≠ .nonterminal v := fun e => h.1 e.symm
      have hrest := ih h.2
      rw [substitute] at hrest
      rw [substitute, List.flatMap_cons, hrest, Symbol.substitute, if_neg hs,
        List.singleton_append]

theorem substitute_eq_nil_iff (v : Variable) (block body : Body) (h : block ≠ []) :
    substitute v block body = [] ↔ body = [] := by
  cases body with
  | nil => simp only [substitute, List.flatMap_nil]
  | cons s rest =>
      -- Neither the block nor a symbol that stays is empty.
      have hs : Symbol.substitute v block s ≠ [] := by
        unfold Symbol.substitute
        split
        · exact h
        · exact List.cons_ne_nil s []
      simp only [substitute, List.flatMap_cons, List.append_eq_nil_iff, hs, false_and,
        List.cons_ne_nil]

theorem language_substitute (I : Interpretation) (v : Variable) (block body : Body)
    (h : I v = block.language I) : (substitute v block body).language I = body.language I := by
  induction body with
  | nil => rfl
  | cons s rest ih =>
      -- The block has the words of the variable it replaces.
      have hs : (Symbol.substitute v block s).language I = s.language I := by
        unfold Symbol.substitute
        split
        · next e => rw [e, ← h, Symbol.language]
        · exact language_singleton I s
      rw [substitute, List.flatMap_cons, language_append, hs, language_cons, ← ih, substitute]

theorem expand_nil (links : List Link) : expand links [] = [] := by
  induction links with
  | nil => rfl
  | cons l rest ih => rw [expand, ih, substitute, List.flatMap_nil]

theorem expand_append (links : List Link) (front back : Body) :
    expand links (front ++ back) = expand links front ++ expand links back := by
  induction links with
  | nil => rfl
  | cons l rest ih => simp only [expand, ih, substitute, List.flatMap_append]

theorem expand_of_not_mem (links : List Link) (body : Body)
    (h : ∀ l ∈ links, .nonterminal l.1 ∉ body) : expand links body = body := by
  induction links with
  | nil => rfl
  | cons l rest ih =>
      rw [expand, ih fun m hm => h m (List.mem_cons_of_mem l hm)]
      exact substitute_of_not_mem l.1 l.2 body (h l List.mem_cons_self)

theorem expand_terminal (links : List Link) (t : Terminal) :
    expand links [.terminal t] = [.terminal t] := by
  refine expand_of_not_mem links _ fun l _ hl => ?_
  exact Symbol.noConfusion (List.mem_singleton.mp hl)

theorem expand_eq_nil_iff (links : List Link) (body : Body) (h : ∀ l ∈ links, l.2 ≠ []) :
    expand links body = [] ↔ body = [] := by
  induction links with
  | nil => rfl
  | cons l rest ih =>
      rw [expand, substitute_eq_nil_iff l.1 l.2 _ (h l List.mem_cons_self)]
      exact ih fun m hm => h m (List.mem_cons_of_mem l hm)

/-- When every link has the words of its body, expansion keeps the words. -/
theorem language_expand (I : Interpretation) (links : List Link) (body : Body)
    (h : ∀ l ∈ links, I l.1 = l.2.language I) :
    (expand links body).language I = body.language I := by
  induction links with
  | nil => rfl
  | cons l rest ih =>
      rw [expand, language_substitute I l.1 l.2 _ (h l List.mem_cons_self)]
      exact ih fun m hm => h m (List.mem_cons_of_mem l hm)

/-- The words of an expanded body, symbol by symbol. -/
theorem language_expand_symbols (I : Interpretation) (links : List Link) (body : Body) :
    (expand links body).language I =
      body.language fun v => (expand links [.nonterminal v]).language I := by
  induction body with
  | nil => rw [expand_nil, language_nil, language_nil]
  | cons s rest ih =>
      rw [← List.singleton_append, expand_append, language_append, ih, List.singleton_append,
        language_cons]
      cases s with
      | terminal t => rw [expand_terminal, language_singleton, Symbol.language, Symbol.language]
      | nonterminal v => rfl

end Body

/-- No link uses its own variable or that of a later link, and no two links are
    for the same variable. -/
inductive Straight : List Link → Prop where
  | nil : Straight []
  | cons (l : Link) (rest : List Link) (own : .nonterminal l.1 ∉ l.2)
      (later : ∀ m ∈ rest, m.1 ≠ l.1 ∧ .nonterminal m.1 ∉ l.2) (tail : Straight rest) :
      Straight (l :: rest)

theorem straight_append (front back : List Link) (hf : Straight front) (hb : Straight back)
    (h : ∀ l ∈ front, ∀ m ∈ back, m.1 ≠ l.1 ∧ .nonterminal m.1 ∉ l.2) :
    Straight (front ++ back) := by
  induction hf with
  | nil => exact hb
  | cons l rest own later _ ih =>
      refine Straight.cons l (rest ++ back) own (fun m hm => ?_) (ih fun k hk => ?_)
      · rcases List.mem_append.mp hm with hm | hm
        · exact later m hm
        · exact h l List.mem_cons_self m hm
      · exact h k (List.mem_cons_of_mem l hk)

/-- A link expands to what its body expands to. -/
theorem expand_link (links : List Link) (h : Straight links) (l : Link) (hl : l ∈ links) :
    Body.expand links [.nonterminal l.1] = Body.expand links l.2 := by
  induction h with
  | nil => exact absurd hl List.not_mem_nil
  | cons k rest own later _ ih =>
      rcases List.mem_cons.mp hl with rfl | hl
      · -- The later links touch neither the variable nor its body.
        have hname : Body.expand rest [.nonterminal l.1] = [.nonterminal l.1] := by
          refine Body.expand_of_not_mem rest _ fun m hm hmem => (later m hm).1 ?_
          exact Symbol.nonterminal.inj (List.mem_singleton.mp hmem)
        have hbody : Body.expand rest l.2 = l.2 :=
          Body.expand_of_not_mem rest _ fun m hm => (later m hm).2
        rw [Body.expand, Body.expand, hname, hbody, Body.substitute_self,
          Body.substitute_of_not_mem l.1 l.2 l.2 own]
      · rw [Body.expand, Body.expand, ih hl]

namespace Grammar

theorem alternatives_of_not_mentioned (g : Grammar) (v : Variable) (h : v ∉ g.mentioned) :
    g.alternatives v = [] :=
  g.alternatives_of_not_mem v fun hv => h (g.mem_mentioned_of_mem_defined v hv)

/-- Links with fresh names leave the bodies of a grammar alone. -/
theorem expand_of_not_mentioned (g : Grammar) (links : List Link)
    (h : ∀ l ∈ links, l.1 ∉ g.mentioned) (body : Body) (hb : body ∈ g.bodies) :
    Body.expand links body = body :=
  Body.expand_of_not_mem links body fun l hl hmem =>
    h l hl (g.mem_mentioned_of_mem_body body l.1 hb hmem)

end Grammar

/-- A grammar `h` that is `g` up to links: a link has its one body in `h` and is
    unknown to `g`, and expanding the bodies of any other variable in `h` gives
    those it has in `g`, one by one and in order. -/
structure Abbreviates (h g : Grammar) (links : List Link) : Prop where
  straight : Straight links
  nonempty : ∀ l ∈ links, l.2 ≠ []
  fresh : ∀ l ∈ links, l.1 ∉ g.mentioned
  single : ∀ l ∈ links, h.alternatives l.1 = [l.2]
  expanded : ∀ v, v ∉ links.map Prod.fst →
    (h.alternatives v).map (Body.expand links) = g.alternatives v

namespace Abbreviates

variable {h g : Grammar} {links : List Link}

theorem expand_of_not_link (v : Variable) (hv : v ∉ links.map Prod.fst) :
    Body.expand links [.nonterminal v] = [.nonterminal v] := by
  refine Body.expand_of_not_mem links _ fun l hl hmem => hv ?_
  exact List.mem_map.mpr ⟨l, hl, Symbol.nonterminal.inj (List.mem_singleton.mp hmem)⟩

theorem language_link (H : Abbreviates h g links) (l : Link) (hl : l ∈ links) :
    h.language l.1 = l.2.language h.language :=
  h.language_of_alternatives_eq l.1 l.2 (H.single l hl) (H.nonempty l hl)

/-- Reading the links off `g` satisfies the bodies of `h`. -/
theorem closed_expand (H : Abbreviates h g links) :
    h.Closed fun v => (Body.expand links [.nonterminal v]).language g.language := by
  intro v body hb hne
  rw [← Body.language_expand_symbols]
  show _ ≤ (Body.expand links [.nonterminal v]).language g.language
  by_cases hv : v ∈ links.map Prod.fst
  · -- The body is that of a link, which has the same expansion.
    rcases List.mem_map.mp hv with ⟨l, hl, rfl⟩
    rw [H.single l hl, List.mem_singleton] at hb
    rw [hb, expand_link links H.straight l hl]
  · -- Any other body expands to one of `g`, and no symbol of it is lost.
    have hmem : Body.expand links body ∈ g.alternatives v := by
      rw [← H.expanded v hv]
      exact List.mem_map_of_mem hb
    have hne' : Body.expand links body ≠ [] := fun e =>
      hne ((Body.expand_eq_nil_iff links body H.nonempty).mp e)
    rw [expand_of_not_link v hv, Body.language_singleton]
    exact g.language_le_of_mem v _ hmem hne'

/-- The derived languages of `h` satisfy the bodies of `g`. -/
theorem closed_language (H : Abbreviates h g links) : g.Closed h.language := by
  intro v body hb hne
  by_cases hv : v ∈ links.map Prod.fst
  · rcases List.mem_map.mp hv with ⟨l, hl, rfl⟩
    rw [g.alternatives_of_not_mentioned l.1 (H.fresh l hl)] at hb
    exact absurd hb List.not_mem_nil
  · -- The body was written shorter, and the shorter one has the same words.
    rw [← H.expanded v hv] at hb
    rcases List.mem_map.mp hb with ⟨short, hs, rfl⟩
    rw [Body.language_expand h.language links short H.language_link]
    refine h.language_le_of_mem v short hs fun e => hne ?_
    rw [e, Body.expand_nil]

/-- A variable derives in the abbreviated grammar what its expansion derives in
    the other one. -/
theorem language_eq_expand (H : Abbreviates h g links) (v : Variable) :
    h.language v = (Body.expand links [.nonterminal v]).language g.language := by
  refine le_antisymm (h.language_le_of_closed _ H.closed_expand v) ?_
  have hle := g.language_le_of_closed h.language H.closed_language
  -- Expanding the variable in its own grammar does not change its words.
  have hexpand := Body.language_expand h.language links [.nonterminal v] H.language_link
  rw [Body.language_singleton, Symbol.language] at hexpand
  rw [← hexpand]
  exact Body.language_mono _ _ _ fun u _ => hle u

/-- Variables that are no links derive the same words in both grammars. -/
theorem language_eq_of_abbreviates (H : Abbreviates h g links) (v : Variable)
    (hv : v ∉ links.map Prod.fst) : h.language v = g.language v := by
  rw [H.language_eq_expand, expand_of_not_link v hv, Body.language_singleton, Symbol.language]

end Abbreviates

end Chomsky
