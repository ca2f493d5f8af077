import Chomsky.Proofs.Forms
import Chomsky.Proofs.Spelling

/-!
# Grammars from Sources

What every grammar has in common that was read from a source.

A source leaves its marks on each rule alone: on the left-hand side, which is trimmed
and not empty, and on the bodies, which are spelled character by character. A rule is
never put together from two entries, so what holds of the rule of each entry holds of
the grammar, whatever was replaced on the way.

The line form leaves further marks. What ends a line, an alternative or a left-hand
side is not a part of it, and there is always an alternative behind an arrow. A rule
object has no such limits: its keys may hold arrows and newlines, and an array of
alternatives may be empty.

## Main definitions

* `Rule.Sourced`: The marks that any source leaves on a rule.
* `Rule.Lined`: The marks that only the line form leaves.

## Theorems

* `sourced_of_texts`: Alternatives are read as bodies of the right kind.
* `exists_of_lineEntry`, `exists_of_memberEntry`: What an entry is made of.
* `exists_members_of_parse`: What a JSON source that is accepted is made of.
* `forall_rules_ofEntries`: What holds of the rules of the entries holds of the grammar.
* `sourced_of_parse`: The grammars of both forms.
-/

namespace Chomsky

/-- The marks that any source leaves on a rule. -/
structure Rule.Sourced (r : Rule) : Prop where
  named : r.1.name ≠ ""
  trimmed : Trimmed r.1.name.toList
  /-- A marker stands alone or not at all. -/
  marked : ∀ body ∈ r.2, body = [] ∨ body = [.epsilon] ∨ body ≠ [] ∧ .epsilon ∉ body
  spelled : ∀ body ∈ r.2, ∀ s ∈ body, ∃ c, s.Spells c

/-- The marks that the line form leaves on a rule besides. -/
structure Rule.Lined (r : Rule) : Prop where
  alternatives_ne_nil : r.2 ≠ []
  arrowFree : ¬ ['-', '>'] <:+: r.1.name.toList
  oneLine : '\n' ∉ r.1.name.toList
  plain : ∀ body ∈ r.2, ∀ s ∈ body, s.text ≠ "|" ∧ s.text ≠ "\n"

theorem marked_readAlternative (text : String) :
    readAlternative text = [] ∨ readAlternative text = [.epsilon] ∨
      readAlternative text ≠ [] ∧ .epsilon ∉ readAlternative text := by
  rcases readAlternative_cases text with hmark | ⟨cs, hspells, hnone, _⟩
  · exact Or.inr (Or.inl hmark)
  · -- Where symbols are spelled, none of them is the marker.
    by_cases hempty : readAlternative text = []
    · exact Or.inl hempty
    · exact Or.inr (Or.inr ⟨hempty, epsilon_not_mem_of_spells _ cs hspells hnone⟩)

/-- A symbol of an alternative is the marker or a character of the text. -/
theorem exists_spells_of_mem_readAlternative (text : String) (s : Symbol)
    (h : s ∈ readAlternative text) : ∃ c, s.Spells c ∧ (c = epsilonMark ∨ c ∈ text.toList) := by
  rcases readAlternative_cases text with hmark | ⟨cs, hspells, _, hsub⟩
  · rw [hmark, List.mem_singleton] at h
    exact ⟨epsilonMark, h ▸ Symbol.spells_epsilon, Or.inl rfl⟩
  · rcases Body.exists_of_spells _ cs hspells s h with ⟨c, hc, hs⟩
    exact ⟨c, hs, Or.inr (hsub c hc)⟩

/-- Alternatives are read as bodies of the right kind. -/
theorem sourced_of_texts (lhs : List Char) (texts : List String) (h : trim lhs ≠ []) :
    Rule.Sourced (⟨String.ofList (trim lhs)⟩, texts.map readAlternative) where
  named := by
    intro hname
    have hchars : (String.ofList (trim lhs)).toList = [] := String.toList_eq_nil_iff.mpr hname
    rw [String.toList_ofList] at hchars
    exact h hchars
  trimmed := by
    rw [String.toList_ofList]
    exact trimmed_trim lhs
  marked := by
    intro body hbody
    rcases List.mem_map.mp hbody with ⟨text, _, rfl⟩
    exact marked_readAlternative text
  spelled := by
    intro body hbody s hs
    rcases List.mem_map.mp hbody with ⟨text, _, rfl⟩
    rcases exists_spells_of_mem_readAlternative text s hs with ⟨c, hspells, _⟩
    exact ⟨c, hspells⟩

/-- No symbol of an alternative is a character that the alternative lacks, the marker
    aside. -/
theorem text_ne_of_mem_readAlternative (text : String) (c : Char) (hmark : c ≠ epsilonMark)
    (hc : c ∉ text.toList) (s : Symbol) (h : s ∈ readAlternative text) :
    s.text ≠ String.singleton c := by
  rcases exists_spells_of_mem_readAlternative text s h with ⟨d, hspells, hd⟩
  -- A symbol with the text of `c` spells nothing but `c`.
  intro htext
  rw [s.eq_of_spells d c hspells htext] at hd
  exact hd.elim hmark hc

/-- The rule of a line is cut out of the line. -/
theorem exists_of_lineEntry (number : Nat) (line : List Char) (e : Entry) (r : Rule)
    (he : lineEntry number line = some e) (hr : e.rule? = some r) :
    ∃ lhs rhs, splitArrow line = some (lhs, rhs) ∧ trim lhs ≠ [] ∧
      r = (⟨String.ofList (trim lhs)⟩,
        ((rhs.splitOn '|').map String.ofList).map readAlternative) := by
  cases hline : splitArrow line with
  | none =>
      -- Without an arrow there is no rule: the line is empty or passed over.
      rw [lineEntry_of_none number line hline] at he
      split at he
      · exact absurd he.symm (Option.some_ne_none _)
      · rw [← Option.some.inj he] at hr
        exact absurd hr.symm (Option.some_ne_none _)
  | some p =>
      rw [lineEntry_of_some number line p.1 p.2 hline] at he
      split at he
      · rw [← Option.some.inj he] at hr
        exact absurd hr.symm (Option.some_ne_none _)
      · next hlhs =>
          rw [← Option.some.inj he] at hr
          exact ⟨p.1, p.2, rfl, fun e => hlhs (List.isEmpty_iff.mpr e), (Option.some.inj hr).symm⟩

/-- What is cut out of a line stays free of what was cut at. -/
theorem lined_of_splitArrow (line lhs rhs : List Char) (hline : '\n' ∉ line)
    (h : splitArrow line = some (lhs, rhs)) :
    Rule.Lined (⟨String.ofList (trim lhs)⟩,
      ((rhs.splitOn '|').map String.ofList).map readAlternative) := by
  rcases eq_append_of_splitArrow line lhs rhs h with ⟨rfl, hnone⟩
  rw [List.mem_append, List.mem_cons, List.mem_cons, not_or, not_or, not_or] at hline
  rcases hline with ⟨hlhs, _, _, hrhs⟩
  -- Trimming takes out a part, so what the left-hand side is free of it stays free of.
  have hpart : trim lhs <:+: lhs := trim_isInfix lhs
  refine ⟨fun hnil => ?_, ?_, ?_, fun body hbody s hs => ?_⟩
  · rw [List.map_map, List.map_eq_nil_iff] at hnil
    exact List.splitOn_ne_nil '|' rhs hnil
  · rw [String.toList_ofList]
    exact fun harrow => (splitArrow_eq_none_iff lhs).mp hnone (harrow.trans hpart)
  · rw [String.toList_ofList]
    exact fun hnewline => hlhs (hpart.mem hnewline)
  · -- An alternative is a piece between bars, of a line without newlines.
    rw [List.map_map] at hbody
    rcases List.mem_map.mp hbody with ⟨piece, hpiece, rfl⟩
    have hbar : '|' ∉ (String.ofList piece).toList := by
      rw [String.toList_ofList]
      exact not_mem_of_mem_splitOn '|' rhs piece hpiece
    have hnewline : '\n' ∉ (String.ofList piece).toList := by
      rw [String.toList_ofList]
      exact fun hmem => hrhs (mem_of_mem_splitOn '|' rhs piece hpiece '\n' hmem)
    exact ⟨text_ne_of_mem_readAlternative _ '|' (by decide) hbar s hs,
      text_ne_of_mem_readAlternative _ '\n' (by decide) hnewline s hs⟩

/-- The rule of a member is its trimmed key with its alternatives. -/
theorem exists_of_memberEntry (key : String) (value : Json) (e : Entry)
    (he : memberEntry key value = .ok e) : trim key.toList ≠ [] ∧
      ∃ texts, e = .rule ⟨String.ofList (trim key.toList)⟩ texts := by
  unfold memberEntry at he
  by_cases hkey : (trim key.toList).isEmpty = true
  · rw [if_pos hkey] at he
    cases he
  · rw [if_neg hkey] at he
    refine ⟨fun hnil => hkey (List.isEmpty_iff.mpr hnil), ?_⟩
    cases value with
    | array items =>
        cases hitems : items.mapM Json.string? with
        | none =>
            simp only [hitems, reduceCtorEq] at he
        | some texts =>
            simp only [hitems, Except.ok.injEq] at he
            exact ⟨texts, he.symm⟩
    | _ => cases he

theorem exists_of_mem_memberEntries (members : List (String × Json)) (e : Entry)
    (h : e ∈ (memberEntries members).1) : ∃ m ∈ members, memberEntry m.1 m.2 = .ok e := by
  induction members with
  | nil => exact absurd h List.not_mem_nil
  | cons m rest ih =>
      cases hm : memberEntry m.1 m.2 with
      | error err =>
          -- Nothing behind a member that is refused has an entry.
          simp only [memberEntries, hm] at h
          exact absurd h List.not_mem_nil
      | ok first =>
          simp only [memberEntries, hm] at h
          rcases List.mem_cons.mp h with rfl | h
          · exact ⟨m, List.mem_cons_self, hm⟩
          · rcases ih h with ⟨q, hq, he⟩
            exact ⟨q, List.mem_cons_of_mem m hq, he⟩

/-- What holds of the rules of the entries holds of the grammar. -/
theorem forall_rules_ofEntries (entries : List Entry) (P : Rule → Prop)
    (h : ∀ e ∈ entries, ∀ r, e.rule? = some r → P r) :
    ∀ r ∈ (Parsed.ofEntries entries).grammar.rules, P r := by
  intro r hr
  rcases List.mem_filterMap.mp (Grammar.mem_of_mem_rules_ofRules _ r hr) with ⟨e, he, hrule⟩
  exact h e he r hrule

theorem sourced_of_mem_pieceEntries (number : Nat) (source : List Char) (e : Entry) (r : Rule)
    (he : e ∈ pieceEntries number source) (hr : e.rule? = some r) :
    Rule.Sourced r ∧ Rule.Lined r := by
  rcases List.mem_filterMap.mp he with ⟨l, hl, hentry⟩
  -- The entry is that of a piece, which holds no newline.
  have hline := not_mem_of_mem_splitOn '\n' source l.1 (List.fst_mem_of_mem_zipIdx hl)
  rcases exists_of_lineEntry l.2 l.1 e r hentry hr with ⟨lhs, rhs, hsplit, hlhs, rfl⟩
  exact ⟨sourced_of_texts lhs _ hlhs, lined_of_splitArrow l.1 lhs rhs hline hsplit⟩

theorem sourced_of_mem_objectEntries (value : Json) (e : Entry) (r : Rule)
    (he : e ∈ (objectEntries value).1) (hr : e.rule? = some r) : Rule.Sourced r := by
  cases value with
  | object members =>
      rcases exists_of_mem_memberEntries members e he with ⟨m, _, hentry⟩
      rcases exists_of_memberEntry m.1 m.2 e hentry with ⟨hkey, texts, rfl⟩
      rw [← Option.some.inj hr]
      exact sourced_of_texts m.1.toList texts hkey
  | _ => exact absurd he List.not_mem_nil

/-- A JSON source that is accepted is an object all of whose members are rules. -/
theorem exists_members_of_parse (source : String) (p : Parsed) (h : parse .json source = .ok p) :
    ∃ members, Json.read (.withoutComments (textBytes source)) = .ok (.object members) ∧
      (memberEntries members).2 = none ∧ p = Parsed.ofEntries (memberEntries members).1 := by
  cases hread : Json.read (.withoutComments (textBytes source)) with
  | error e =>
      rw [parse, readSource, readObject, hread] at h
      cases h
  | ok value =>
      rw [parse_json_of_read source value hread, readValue, Reading.parsed] at h
      -- Any other value, and any refused member, would have been reported.
      cases value with
      | object members =>
          rw [objectEntries] at h
          cases herror : (memberEntries members).2 with
          | none =>
              rw [herror] at h
              exact ⟨members, rfl, herror, (Except.ok.inj h).symm⟩
          | some e =>
              rw [herror] at h
              cases h
      | _ => cases h

/-- A JSON source that is accepted holds a value whose entries make up the grammar. -/
theorem exists_of_parse_json (source : String) (p : Parsed) (h : parse .json source = .ok p) :
    ∃ value, p = Parsed.ofEntries (objectEntries value).1 := by
  rcases exists_members_of_parse source p h with ⟨members, _, _, hp⟩
  exact ⟨.object members, hp⟩

/-- Every text is a grammar in line form, and its rules have the marks of that form. A
    text that is accepted as a JSON source is a grammar whose rules have the marks of
    any source. -/
theorem sourced_of_parse (source : String) :
    (∃ p, parse .text source = .ok p ∧
      ∀ r ∈ p.grammar.rules, Rule.Sourced r ∧ Rule.Lined r) ∧
    ∀ p, parse .json source = .ok p → ∀ r ∈ p.grammar.rules, Rule.Sourced r := by
  refine ⟨⟨_, parse_text_eq source, ?_⟩, fun p hp => ?_⟩
  · exact forall_rules_ofEntries _ _ fun e he r hr =>
      sourced_of_mem_pieceEntries 1 source.toList e r he hr
  · rcases exists_of_parse_json source p hp with ⟨value, rfl⟩
    exact forall_rules_ofEntries _ _ fun e he r hr =>
      sourced_of_mem_objectEntries value e r he hr

/-- A source in both forms. Its key has an arrow, which ends the left-hand side of a
    line, and one of its alternatives a bar. -/
def twofoldSource : String := "\x7b\" A->\": [\"a|εB \", \"εε\", \"\"]\x7d"

theorem sourced_twofoldSource :
    (∃ p, parse .text twofoldSource = .ok p ∧
      ∀ r ∈ p.grammar.rules, Rule.Sourced r ∧ Rule.Lined r) ∧
    ∃ p, parse .json twofoldSource = .ok p ∧
      p.grammar.rules = [(⟨"A->"⟩, [[.terminal ⟨"a"⟩, .terminal ⟨"|"⟩, .nonterminal ⟨"B"⟩],
        [.epsilon], []])] ∧
      ∀ r ∈ p.grammar.rules, Rule.Sourced r :=
  ⟨(sourced_of_parse twofoldSource).1, _, rfl, rfl, (sourced_of_parse twofoldSource).2 _ rfl⟩

end Chomsky
