import Chomsky.Document
import Chomsky.Proofs.Conversion
import Chomsky.Proofs.Redefinition

/-!
# Grammars Out of Documents

The document of a conversion has all of the final grammar in it.

A document writes a symbol as its text, so that a variable and a terminal of the
same name look alike. Nor does it have an array of its own for the order of the
variables, which is that of the members of an object. In general a grammar is
lost that way. In normal form it is not: a body of one symbol can only hold a
terminal and a body of two can only hold variables, so the length of an array
tells what its texts are. And no two members have the same key, since no variable
is listed twice.

What has to be known about a conversion is therefore that it ends in normal form,
whether it began with a grammar or with a source, and nothing else.

## Main definitions

* `Converted`: The outcomes of conversions.
* `Json.body?`, `Json.rule?`, `Json.grammar?`: Bodies, rules and grammars as a
  document has them.
* `Json.start?`, `Json.rules?`: The members of a document.

## Theorems

* `body?_toJson`: A body in normal form is read back.
* `grammar?_toJson`: So is a grammar of such bodies.
* `isNormal_of_converted`: The bodies at the end of a conversion.
* `grammar?_document`: A document gives back the start symbol and the grammar.
-/

namespace Chomsky

open Grammar

/-- The outcomes of conversions, be it of a grammar or of a source. -/
def Converted (o : Options) (c : Conversion) : Prop :=
  (∃ g, convertGrammar o g = .ok c) ∨ ∃ source, convert o source = .ok c

namespace Json

/-- The member of an object with the given key. -/
def member? (key : String) : Json → Option Json
  | object members => members.lookup key
  | _ => none

/-- The body that an array of texts stands for: one text is a terminal, and two
    are variables. -/
def body? : Json → Option Body
  | array [string t] => some [.terminal ⟨t⟩]
  | array [string u, string w] => some [.nonterminal ⟨u⟩, .nonterminal ⟨w⟩]
  | _ => none

/-- The rule that a member stands for. -/
def rule? (m : String × Json) : Option Rule :=
  match m.2 with
  | array bodies => (bodies.mapM body?).map fun alternatives => (⟨m.1⟩, alternatives)
  | _ => none

/-- The grammar that an object stands for, its members taken in order. -/
def grammar? : Json → Option Grammar
  | object members => (members.mapM rule?).map Grammar.ofRules
  | _ => none

/-- The start symbol of a document. -/
def start? (document : Json) : Option Variable :=
  (document.member? "start").bind fun v => v.string?.map Variable.mk

/-- The rules of a document. -/
def rules? (document : Json) : Option Json := document.member? "rules"

end Json

/-- Reading what was written, item by item. -/
theorem mapM_map_eq_some {α β : Type} (write : α → β) (read : β → Option α) (xs : List α)
    (h : ∀ x ∈ xs, read (write x) = some x) : (xs.map write).mapM read = some xs := by
  induction xs with
  | nil => rfl
  | cons x rest ih =>
      rw [List.map_cons, List.mapM_cons, h x List.mem_cons_self,
        ih fun y hy => h y (List.mem_cons_of_mem x hy)]
      rfl

theorem body?_toJson (body : Body) (h : IsNormal body) : body.toJson.body? = some body := by
  rcases h with ⟨t, rfl⟩ | ⟨u, w, rfl⟩
  · rfl
  · rfl

theorem rule?_toJson (r : Rule) (h : ∀ body ∈ r.2, IsNormal body) :
    Json.rule? (r.1.name, .array (r.2.map Body.toJson)) = some r := by
  simp only [Json.rule?, mapM_map_eq_some _ _ r.2 fun body hb => body?_toJson body (h body hb),
    Option.map_some]

/-- A grammar is read back if its bodies are in normal form. Reading defines its
    rules one after the other, and no rule replaces another. -/
theorem grammar?_toJson (g : Grammar) (h : ∀ v, ∀ body ∈ g.alternatives v, IsNormal body) :
    g.toJson.grammar? = some g := by
  have hrules : ∀ r ∈ g.rules, ∀ body ∈ r.2, IsNormal body := fun r hr body hb =>
    h r.1 body ((g.alternatives_of_mem_rules r hr).symm ▸ hb)
  simp only [Grammar.toJson, Json.grammar?,
    mapM_map_eq_some _ _ g.rules fun r hr => rule?_toJson r (hrules r hr), Option.map_some,
    ofRules_rules]

/-- The members for the rules of a grammar have different keys. -/
theorem nodup_keys_rules (g : Grammar) : (g.rules.map fun r => r.1.name).Nodup := by
  have hname : Function.Injective Variable.name := fun u w e => by
    cases u
    cases w
    exact congrArg Variable.mk e
  have hkeys := g.distinct.map hname
  rwa [List.map_map] at hkeys

/-- The warnings that came in have no influence on the grammars, and one more may be
    added to them. -/
theorem exists_convertGrammar_of_runStages (o : Options) (p : Parsed) (c : Conversion)
    (h : runStages o p = .ok c) :
    (∃ d, convertGrammar o p.grammar = .ok d ∧ d.final = c.final) ∧
      c.warnings = p.warnings ++ startWarnings o p.grammar := by
  unfold convertGrammar runStages at *
  cases hstage : p.grammar.eliminateEpsilon o.start o.keepStartEpsilon o.maxNullable with
  | error e =>
      rw [hstage] at h
      exact absurd h (by simp only [Except.map, reduceCtorEq, not_false_eq_true])
  | ok r =>
      rw [hstage] at h
      rw [← Except.ok.inj h]
      exact ⟨⟨_, rfl, rfl⟩, rfl⟩

/-- Converting a source is converting its grammar. -/
theorem exists_runStages_of_convert (o : Options) (source : String) (c : Conversion)
    (h : convert o source = .ok c) :
    ∃ p, parse o.format source = .ok p ∧ runStages o p = .ok c := by
  unfold convert at h
  split at h
  · exact absurd h (by simp only [reduceCtorEq, not_false_eq_true])
  · next p hp =>
      cases hrun : runStages o p with
      | error e =>
          rw [hrun] at h
          exact absurd h (by simp only [Except.mapError, reduceCtorEq, not_false_eq_true])
      | ok d =>
          rw [hrun] at h
          exact ⟨p, hp, by rw [hrun, ← Except.ok.inj h]⟩

theorem isNormal_of_converted (o : Options) (c : Conversion) (h : Converted o c) (v : Variable)
    (body : Body) (hb : body ∈ c.final.alternatives v) : IsNormal body := by
  -- A grammar whose conversion ends with the same final grammar.
  have hgrammar : ∃ g d, convertGrammar o g = .ok d ∧ d.final = c.final := by
    rcases h with ⟨g, hg⟩ | ⟨source, hsource⟩
    · exact ⟨g, c, hg, rfl⟩
    · rcases exists_runStages_of_convert o source c hsource with ⟨p, _, hp⟩
      rcases (exists_convertGrammar_of_runStages o p c hp).1 with ⟨d, hd, hfinal⟩
      exact ⟨p.grammar, d, hd, hfinal⟩
  rcases hgrammar with ⟨g, d, hd, hsame⟩
  rcases exists_of_convertGrammar o g d hd with ⟨b, hfinal, hfree, hbinary, hconfined⟩
  rw [← hsame, hfinal] at hb
  exact b.isNormal_isolateTerminals _ _ hconfined hfree hbinary v body hb

/-- The document of a conversion gives back its start symbol and its final grammar,
    with the order of the variables and of their alternatives. The rules have
    different keys, so that nothing hangs on how an object treats a repeated one. -/
theorem grammar?_document (o : Options) (c : Conversion) (h : Converted o c) (steps : Bool) :
    (c.toJson steps).start? = some c.start ∧
    ∃ members, (c.toJson steps).rules? = some (.object members) ∧
      (members.map Prod.fst).Nodup ∧ (Json.object members).grammar? = some c.final := by
  refine ⟨rfl, _, rfl, ?_, ?_⟩
  · rw [List.map_map]
    exact nodup_keys_rules c.final
  · exact grammar?_toJson c.final (isNormal_of_converted o c h)

/-- A terminal is named like the chain variable, and another one like the variable
    that stands for it. -/
def doubleNamed : Grammar := ofRules [
  (⟨"S"⟩, [[.terminal ⟨"N1"⟩, .terminal ⟨"T1"⟩, .nonterminal ⟨"A"⟩], [.nonterminal ⟨"A"⟩]]),
  (⟨"A"⟩, [[.terminal ⟨"N1"⟩], [.epsilon]])]

theorem grammar?_doubleNamed :
    ∃ c, Converted { keepStartEpsilon := true } c ∧
      convertGrammar { keepStartEpsilon := true } doubleNamed = .ok c ∧
      (c.toJson false).start? = some ⟨"S"⟩ ∧
      ∃ members, (c.toJson false).rules? = some (.object members) ∧
        (members.map Prod.fst).Nodup ∧ (Json.object members).grammar? = some (ofRules [
          (⟨"S"⟩, [[.nonterminal ⟨"N1"⟩, .nonterminal ⟨"A"⟩],
            [.nonterminal ⟨"T1"⟩, .nonterminal ⟨"T2"⟩], [.epsilon], [.terminal ⟨"N1"⟩]]),
          (⟨"A"⟩, [[.terminal ⟨"N1"⟩]]),
          (⟨"N1"⟩, [[.nonterminal ⟨"T1"⟩, .nonterminal ⟨"T2"⟩]]),
          (⟨"T1"⟩, [[.terminal ⟨"N1"⟩]]), (⟨"T2"⟩, [[.terminal ⟨"T1"⟩]])]) := by
  refine ⟨_, Or.inl ⟨doubleNamed, rfl⟩, rfl, ?_⟩
  rcases grammar?_document { keepStartEpsilon := true } _ (Or.inl ⟨doubleNamed, rfl⟩) false with
    ⟨hstart, members, hrules, hkeys, hgrammar⟩
  exact ⟨hstart, members, hrules, hkeys, hgrammar⟩

end Chomsky
