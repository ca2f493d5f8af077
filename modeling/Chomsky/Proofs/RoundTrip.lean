import Chomsky.Proofs.Forms
import Chomsky.Proofs.Spelling

/-!
# Printing and Reading Back

A grammar printed in line form is read back as it was.

Printing loses the borders between symbols and the kinds of symbols, and it does not
quote anything. A grammar can thus be read back if its symbols are single characters
of the right kind, if no separator is among them, and if nothing of its bodies and
left-hand sides is taken for a blank at an end. Blanks inside a body are symbols like
any other, and so are the two characters of an arrow.

The rules of such a grammar are rules that a line can hold. Their lines say what they
say, each alternative is read as the body it was printed from, and no variable has
two rules. A body of zero length is printed as nothing at all, which reads back as
such a body, but not without a warning.

## Main definitions

* `Body.Printable`, `Rule.Printable`, `Grammar.Printable`: What can be read back.
* `Grammar.emptyAlternatives`: A warning for each body of zero length.

## Theorems

* `Body.readAlternative_text`: The text of a body denotes the body.
* `Rule.writable_texts`: A line can hold a printable rule.
* `render_eq_ruleLines`: Printing a grammar is writing its rules in lines.
* `parse_render`: What is printed is read back.
-/

namespace Chomsky

/-- A body that can be read back. It is the empty production, or else its symbols are
    single characters, none of them a marker, a bar or a newline, and no blank stands
    at either end. A body of zero length has no such character either. -/
def Body.Printable (body : Body) : Prop :=
  body = [.epsilon] ∨
    ∃ cs, body.Spells cs ∧ epsilonMark ∉ cs ∧ '|' ∉ cs ∧ '\n' ∉ cs ∧ Trimmed cs

/-- A rule that can be read back. -/
structure Rule.Printable (r : Rule) : Prop where
  named : r.1.name ≠ ""
  trimmed : Trimmed r.1.name.toList
  oneLine : '\n' ∉ r.1.name.toList
  arrowFree : ¬ ['-', '>'] <:+: r.1.name.toList
  /-- A line has at least one alternative. -/
  alternatives_ne_nil : r.2 ≠ []
  bodies : ∀ body ∈ r.2, Body.Printable body

/-- A grammar that can be read back. -/
def Grammar.Printable (g : Grammar) : Prop := ∀ r ∈ g.rules, Rule.Printable r

/-- A warning for each body of zero length, rule after rule. -/
def Grammar.emptyAlternatives (g : Grammar) : List Warning :=
  g.rules.flatMap fun r => r.2.zipIdx.filterMap fun b =>
    if b.1.isEmpty then some (.emptyAlternative r.1 b.2) else none

namespace Body

/-- The only text that a body can spell is its own. -/
theorem printable_iff (body : Body) : body.Printable ↔ body = [.epsilon] ∨
    body = (body.text "").toList.map Symbol.classify ∧
      epsilonMark ∉ (body.text "").toList ∧ '|' ∉ (body.text "").toList ∧
      '\n' ∉ (body.text "").toList ∧ Trimmed (body.text "").toList := by
  refine or_congr Iff.rfl ⟨?_, fun h => ⟨_, (body.spells_iff _).mpr h.1, h.2⟩⟩
  rintro ⟨cs, hspells, hplain⟩
  rw [body.text_of_spells cs hspells, String.toList_ofList]
  exact ⟨(body.spells_iff cs).mp hspells, hplain⟩

instance (body : Body) : Decidable body.Printable := decidable_of_iff _ body.printable_iff.symm

/-- The text of a printable body denotes the body. -/
theorem readAlternative_text (body : Body) (h : body.Printable) :
    readAlternative (body.text "") = body := by
  rcases h with rfl | ⟨cs, hspells, hmark, _, _, htrimmed⟩
  · decide
  · -- Nothing is trimmed off, so the characters that are read are those that were spelled.
    have htrim : trim (body.text "").toList = cs := by
      rw [body.text_of_spells cs hspells, String.toList_ofList, (trim_eq_self_iff cs).mpr htrimmed]
    refine readAlternative_of_spells _ body ?_ ?_
    · rw [htrim]
      exact hspells
    · rw [htrim]
      exact hmark

theorem dropsEpsilon_text (body : Body) (h : body.Printable) :
    dropsEpsilon (body.text "") = false := by
  rcases h with rfl | ⟨cs, hspells, hmark, _, _, htrimmed⟩
  · decide
  · rw [dropsEpsilon, body.text_of_spells cs hspells, String.toList_ofList,
      (trim_eq_self_iff cs).mpr htrimmed, List.contains_eq_mem, decide_eq_false hmark,
      Bool.false_and]

/-- The text of a printable body stays within its alternative and its line. -/
theorem separators_not_mem_text (body : Body) (h : body.Printable) :
    '|' ∉ (body.text "").toList ∧ '\n' ∉ (body.text "").toList := by
  rcases h with rfl | ⟨cs, hspells, _, hbar, hnewline, _⟩
  · decide
  · rw [body.text_of_spells cs hspells, String.toList_ofList]
    exact ⟨hbar, hnewline⟩

/-- Only a body of zero length gives rise to a warning. -/
theorem alternativeWarnings_text (lhs : Variable) (index : Nat) (body : Body) (h : body.Printable) :
    alternativeWarnings lhs index (body.text "") =
      if body.isEmpty then [.emptyAlternative lhs index] else [] := by
  rw [alternativeWarnings, dropsEpsilon_text body h, readAlternative_text body h,
    if_neg Bool.false_ne_true, List.nil_append]

end Body

namespace Rule

instance (r : Rule) : Decidable (Rule.Printable r) :=
  decidable_of_iff
    (r.1.name ≠ "" ∧ Trimmed r.1.name.toList ∧ '\n' ∉ r.1.name.toList ∧
      ¬ ['-', '>'] <:+: r.1.name.toList ∧ r.2 ≠ [] ∧ ∀ body ∈ r.2, Body.Printable body)
    ⟨fun ⟨hnamed, htrimmed, hline, harrow, hne, hbodies⟩ =>
        ⟨hnamed, htrimmed, hline, harrow, hne, hbodies⟩,
      fun h => ⟨h.named, h.trimmed, h.oneLine, h.arrowFree, h.alternatives_ne_nil, h.bodies⟩⟩

/-- A left-hand side and its alternatives as they are printed. -/
def texts (r : Rule) : String × List String := (r.1.name, r.2.map (Body.text ""))

/-- A line can hold a printable rule. -/
theorem writable_texts (r : Rule) (h : Rule.Printable r) : Writable (texts r) where
  named := by
    show trim r.1.name.toList ≠ []
    rw [(trim_eq_self_iff _).mpr h.trimmed, Ne, String.toList_eq_nil_iff]
    exact h.named
  arrowFree := h.arrowFree
  oneLine := h.oneLine
  alternatives_ne_nil := fun e => h.alternatives_ne_nil (List.map_eq_nil_iff.mp e)
  plain := by
    intro text htext
    rcases List.mem_map.mp htext with ⟨body, hbody, rfl⟩
    exact body.separators_not_mem_text (h.bodies body hbody)

theorem ruleEntry_texts (r : Rule) (h : Rule.Printable r) :
    ruleEntry (texts r) = .rule r.1 (r.2.map (Body.text "")) := by
  rw [ruleEntry, texts, trimText, (trim_eq_self_iff _).mpr h.trimmed, String.ofList_toList]

/-- The entry of a printed rule has the rule back. -/
theorem rule?_ruleEntry_texts (r : Rule) (h : Rule.Printable r) :
    (ruleEntry (texts r)).rule? = some r := by
  -- Each alternative is read as the body it was printed from.
  have hbodies : r.2.map (readAlternative ∘ Body.text "") = r.2 := by
    rw [List.map_congr_left fun body hbody => body.readAlternative_text (h.bodies body hbody)]
    exact List.map_id r.2
  rw [ruleEntry_texts r h, Entry.rule?, List.map_map, hbodies]

theorem warnings_ruleEntry_texts (r : Rule) (h : Rule.Printable r) :
    (ruleEntry (texts r)).warnings = r.2.zipIdx.filterMap fun b =>
      if b.1.isEmpty then some (.emptyAlternative r.1 b.2) else none := by
  rw [ruleEntry_texts r h, Entry.warnings, List.zipIdx_map, List.flatMap_map,
    List.filterMap_eq_flatMap_toList]
  -- Body by body, as an index is counted over all bodies, with a warning or without.
  refine List.flatMap_congr fun b hb => ?_
  have hbody := h.bodies b.1 (List.fst_mem_of_mem_zipIdx hb)
  rw [Prod.map_fst, Prod.map_snd, id_eq, Body.alternativeWarnings_text r.1 b.2 b.1 hbody]
  split <;> rfl

end Rule

instance (g : Grammar) : Decidable g.Printable :=
  inferInstanceAs (Decidable (∀ r ∈ g.rules, Rule.Printable r))

/-- Printing a grammar is writing its rules in lines. -/
theorem render_eq_ruleLines (g : Grammar) :
    g.render " -> " "" = ruleLines (g.rules.map Rule.texts) := by
  rw [Grammar.render, ruleLines, List.map_map]
  rfl

/-- A printable grammar is read back from its lines with its variables, alternatives
    and symbols in order, and the only warnings are those for its bodies of zero
    length. -/
theorem parse_render (g : Grammar) (h : g.Printable) :
    parse .text (g.render " -> " "") = .ok ⟨g, g.emptyAlternatives⟩ := by
  -- The printed rules can be held by lines, and their entries have the rules back.
  have hwritable : ∀ r ∈ g.rules.map Rule.texts, Writable r := by
    intro r hr
    rcases List.mem_map.mp hr with ⟨q, hq, rfl⟩
    exact Rule.writable_texts q (h q hq)
  have hrules : ((g.rules.map Rule.texts).map ruleEntry).filterMap Entry.rule? = g.rules := by
    have hsame : ∀ r ∈ g.rules, (Entry.rule? ∘ ruleEntry ∘ Rule.texts) r = some r := fun r hr =>
      Rule.rule?_ruleEntry_texts r (h r hr)
    rw [List.map_map, List.filterMap_map, List.filterMap_congr hsame, List.filterMap_some]
  have hwarnings : ((g.rules.map Rule.texts).map ruleEntry).flatMap Entry.warnings =
      g.emptyAlternatives := by
    rw [List.map_map, List.flatMap_map]
    exact List.flatMap_congr fun r hr => Rule.warnings_ruleEntry_texts r (h r hr)
  -- No variable has two rules, so none is replaced when they are defined one by one.
  rw [render_eq_ruleLines, parse_ruleLines _ hwritable, Parsed.ofEntries, hrules, hwarnings,
    Grammar.ofRules_rules]

/-- Names and bodies that an arrow, a bar or a carriage return is part of. -/
def arrowGrammar : Grammar := Grammar.ofRules [
  (⟨"A-"⟩, [[.terminal ⟨"-"⟩, .terminal ⟨">"⟩], [], [.epsilon]]),
  (⟨"|\r>"⟩, [[.nonterminal ⟨"B"⟩, .terminal ⟨"\r"⟩, .terminal ⟨" "⟩, .terminal ⟨"ö"⟩], []])]

theorem parse_render_arrowGrammar : arrowGrammar.Printable ∧
    parse .text (arrowGrammar.render " -> " "") = .ok ⟨arrowGrammar,
      [.emptyAlternative ⟨"A-"⟩ 1, .emptyAlternative ⟨"|\r>"⟩ 1]⟩ := by
  have hprintable : arrowGrammar.Printable := by decide
  exact ⟨hprintable, parse_render arrowGrammar hprintable⟩

end Chomsky
