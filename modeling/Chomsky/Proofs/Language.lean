import Chomsky.Grammar.Lemmas
import Mathlib

/-!
# The Language of a Variable

What a variable of a grammar derives, and the one principle by which the
conversion is shown to keep it.

Derivation is rewriting. A grammar is read as rewrite rules on sentential forms,
one for each body: a zero-length body gives no rule, and a marker `ε` in a body
leaves no trace in the form. The language of a variable is then the set of words
to which the variable alone can be rewritten.

Rewriting sequences are awkward to take apart, since the steps of different
symbols may come in any order. So they are replaced once and for all. Assign a
language to each variable: a body then has a language too, the product of those
of its symbols. An assignment is closed when every body stays within the
language of its variable. The languages that the variables derive are closed,
and they are the least closed assignment. To compare two grammars it is enough
to show that what one derives is closed in the other, which looks at single
bodies and never at a derivation.

## Main definitions

* `ContextFreeGrammar.formLanguage`: The language of a sentential form.
* `Grammar.rewriting`: A grammar as a set of rewrite rules.
* `Grammar.language`: The words that a variable derives.
* `Body.language`: The words of a body under an assignment of languages.
* `Grammar.Closed`: Every body stays within the language of its variable.

## Theorems

* `formLanguage_mono_of_derives`: A rewriting step loses words at most.
* `derives_of_mem_formLanguage`: The words of a form are derived from it.
* `closed_language`: The derived languages are closed.
* `language_le_of_closed`: They are the least closed assignment.
* `mem_language_iff`: A word of a variable is a word of one of its bodies.
-/

namespace ContextFreeGrammar

variable {T : Type*}

/-- A sentential form: terminals and nonterminals in a row. -/
abbrev Form (T N : Type*) := List (Symbol T N)

/-- The language of a symbol when every nonterminal is assigned one. -/
def symbolLanguage {N : Type*} (I : N → Language T) : Symbol T N → Language T
  | .terminal t => {[t]}
  | .nonterminal A => I A

/-- The language of a sentential form: the product of those of its symbols. -/
def formLanguage {N : Type*} (I : N → Language T) (form : Form T N) : Language T :=
  (form.map (symbolLanguage I)).prod

theorem formLanguage_append {N : Type*} (I : N → Language T) (u v : Form T N) :
    formLanguage I (u ++ v) = formLanguage I u * formLanguage I v := by
  rw [formLanguage, List.map_append, List.prod_append, formLanguage, formLanguage]

theorem formLanguage_singleton {N : Type*} (I : N → Language T) (A : N) :
    formLanguage I [.nonterminal A] = I A := by
  simp only [formLanguage, symbolLanguage, List.map_cons, List.map_nil, List.prod_cons,
    List.prod_nil, mul_one]

theorem mem_formLanguage_terminals {N : Type*} (I : N → Language T) (w : List T) :
    w ∈ formLanguage I (w.map Symbol.terminal) := by
  induction w with
  | nil => exact Language.nil_mem_one
  | cons t w ih =>
      simp only [formLanguage, List.map_cons, List.prod_cons, symbolLanguage]
      exact Language.mem_mul.mpr ⟨[t], rfl, w, ih, rfl⟩

/-- When every rule stays within the language of its nonterminal, rewriting a
    form never adds words to it. -/
theorem formLanguage_mono_of_derives (G : ContextFreeGrammar T) (I : G.NT → Language T)
    (hI : ∀ r ∈ G.rules, formLanguage I r.output ≤ I r.input) (u v : Form T G.NT)
    (h : G.Derives u v) : formLanguage I v ≤ formLanguage I u := by
  induction h with
  | refl => exact le_refl _
  | tail _ hstep ih =>
      -- A step puts the output of a rule where its nonterminal was.
      rcases hstep with ⟨r, hr, hrew⟩
      rcases hrew.exists_parts with ⟨p, q, rfl, rfl⟩
      refine le_trans ?_ ih
      simp only [formLanguage_append, formLanguage_singleton]
      exact mul_le_mul' (mul_le_mul' (le_refl _) (hI r hr)) (le_refl _)

/-- The words that a grammar derives from a nonterminal. -/
def derived (G : ContextFreeGrammar T) (A : G.NT) : Language T :=
  {w | G.Derives [.nonterminal A] (w.map Symbol.terminal)}

theorem derives_of_mem_formLanguage (G : ContextFreeGrammar T) (form : Form T G.NT) (w : List T)
    (h : w ∈ formLanguage G.derived form) : G.Derives form (w.map Symbol.terminal) := by
  induction form generalizing w with
  | nil =>
      have hw : w = [] := h
      rw [hw]
      exact Derives.refl _
  | cons s form ih =>
      rw [formLanguage, List.map_cons, List.prod_cons] at h
      rcases Language.mem_mul.mp h with ⟨a, ha, b, hb, rfl⟩
      have hhead : G.Derives [s] (a.map Symbol.terminal) := by
        cases s with
        | terminal t =>
            have hat : a = [t] := ha
            rw [hat]
            exact Derives.refl _
        | nonterminal A => exact ha
      -- The two derivations take place side by side.
      rw [List.map_append, ← List.singleton_append]
      exact (hhead.append_right form).trans ((ih b hb).append_left _)

theorem formLanguage_derived_le (G : ContextFreeGrammar T) (r : ContextFreeRule T G.NT)
    (hr : r ∈ G.rules) : formLanguage G.derived r.output ≤ G.derived r.input := by
  intro w hw
  -- The rule is the first step, and the derivation of its output goes on from there.
  have hstep : G.Produces [.nonterminal r.input] r.output :=
    ⟨r, hr, ContextFreeRule.Rewrites.input_output⟩
  exact hstep.trans_derives (G.derives_of_mem_formLanguage r.output w hw)

theorem derived_le (G : ContextFreeGrammar T) (I : G.NT → Language T)
    (hI : ∀ r ∈ G.rules, formLanguage I r.output ≤ I r.input) (A : G.NT) : G.derived A ≤ I A := by
  intro w hw
  have hle := G.formLanguage_mono_of_derives I hI _ _ hw
  rw [formLanguage_singleton] at hle
  exact hle (mem_formLanguage_terminals I w)

end ContextFreeGrammar

namespace Chomsky

/-- A language for each variable. -/
abbrev Interpretation := Variable → Language Terminal

namespace Symbol

/-- A symbol in a sentential form. The marker `ε` leaves no trace there. -/
def form : Symbol → ContextFreeGrammar.Form Terminal Variable
  | .terminal t => if t.isEpsilon then [] else [.terminal t]
  | .nonterminal v => [.nonterminal v]

/-- The words of a symbol when each variable is assigned a language. The marker
    `ε` stands for the empty word. -/
def language (I : Interpretation) : Symbol → Language Terminal
  | .terminal t => if t.isEpsilon then 1 else {[t]}
  | .nonterminal v => I v

theorem formLanguage_form (I : Interpretation) (s : Symbol) :
    ContextFreeGrammar.formLanguage I s.form = s.language I := by
  cases s with
  | terminal t =>
      by_cases h : t.isEpsilon = true
      · simp only [form, language, if_pos h]
        rfl
      · simp only [form, language, if_neg h, ContextFreeGrammar.formLanguage,
          ContextFreeGrammar.symbolLanguage, List.map_cons, List.map_nil, List.prod_cons,
          List.prod_nil, mul_one]
  | nonterminal v => exact ContextFreeGrammar.formLanguage_singleton I v

theorem language_of_isEpsilon (I : Interpretation) (s : Symbol) (h : s.isEpsilon = true) :
    s.language I = 1 := by
  cases s with
  | terminal t => simp only [language, if_pos (show t.isEpsilon = true from h)]
  | nonterminal v => exact absurd h Bool.false_ne_true

end Symbol

namespace Body

/-- A body as a sentential form. -/
def form (body : Body) : ContextFreeGrammar.Form Terminal Variable := body.flatMap Symbol.form

/-- The words of a body when each variable is assigned a language. -/
def language (I : Interpretation) (body : Body) : Language Terminal :=
  (body.map (Symbol.language I)).prod

@[simp] theorem language_nil (I : Interpretation) : language I [] = 1 := rfl

@[simp] theorem language_cons (I : Interpretation) (s : Symbol) (rest : Body) :
    language I (s :: rest) = s.language I * language I rest := by
  rw [language, List.map_cons, List.prod_cons, language]

@[simp] theorem language_append (I : Interpretation) (front back : Body) :
    language I (front ++ back) = language I front * language I back := by
  rw [language, List.map_append, List.prod_append, language, language]

@[simp] theorem language_singleton (I : Interpretation) (s : Symbol) :
    language I [s] = s.language I := by
  simp

theorem formLanguage_form (I : Interpretation) (body : Body) :
    ContextFreeGrammar.formLanguage I body.form = body.language I := by
  induction body with
  | nil => rfl
  | cons s rest ih =>
      rw [form, List.flatMap_cons, ContextFreeGrammar.formLanguage_append,
        Symbol.formLanguage_form, language_cons, ← ih, form]

theorem language_mono (I J : Interpretation) (body : Body)
    (h : ∀ v, .nonterminal v ∈ body → I v ≤ J v) : body.language I ≤ body.language J := by
  induction body with
  | nil => exact le_refl _
  | cons s rest ih =>
      rw [language_cons, language_cons]
      refine mul_le_mul' ?_ (ih fun v hv => h v (List.mem_cons_of_mem s hv))
      cases s with
      | terminal t => exact le_refl _
      | nonterminal v => exact h v List.mem_cons_self

end Body

namespace Grammar

/-- The rewrite rules of a grammar, one for each body that is not zero-length. -/
def rewriteRules (g : Grammar) : Finset (ContextFreeRule Terminal Variable) :=
  (g.rules.flatMap fun r =>
    (r.2.filter (!·.isEmpty)).map fun body => ⟨r.1, body.form⟩).toFinset

/-- A grammar as a rewriting system that starts from the given variable. -/
def rewriting (g : Grammar) (start : Variable) : ContextFreeGrammar Terminal where
  NT := Variable
  initial := start
  rules := g.rewriteRules

/-- The words that a variable derives. -/
def language (g : Grammar) : Interpretation := fun v => (g.rewriting v).language

/-- Every body, the zero-length ones apart, stays within the language that is
    assigned to its variable. -/
def Closed (g : Grammar) (I : Interpretation) : Prop :=
  ∀ v, ∀ body ∈ g.alternatives v, body ≠ [] → body.language I ≤ I v

theorem mem_rewriteRules (g : Grammar) (r : ContextFreeRule Terminal Variable) :
    r ∈ g.rewriteRules ↔
      ∃ body ∈ g.alternatives r.input, body ≠ [] ∧ body.form = r.output := by
  simp only [rewriteRules, List.mem_toFinset, List.mem_flatMap, List.mem_map, List.mem_filter,
    mem_alternatives_iff]
  constructor
  · intro h
    rcases h with ⟨q, hq, body, ⟨hb, hne⟩, rfl⟩
    exact ⟨body, ⟨q, hq, rfl, hb⟩, by simpa using hne, rfl⟩
  · intro h
    rcases h with ⟨body, ⟨q, hq, hv, hb⟩, hne, hform⟩
    refine ⟨q, hq, body, ⟨hb, by simpa using hne⟩, ?_⟩
    rw [hv, hform]

theorem closed_iff (g : Grammar) (start : Variable) (I : Interpretation) :
    g.Closed I ↔ ∀ r ∈ (g.rewriting start).rules,
      ContextFreeGrammar.formLanguage I r.output ≤ I r.input := by
  constructor
  · intro hI r hr
    rcases (g.mem_rewriteRules r).mp hr with ⟨body, hb, hne, hform⟩
    rw [← hform, Body.formLanguage_form]
    exact hI r.input body hb hne
  · intro hI v body hb hne
    rw [← Body.formLanguage_form]
    exact hI ⟨v, body.form⟩ ((g.mem_rewriteRules _).mpr ⟨body, hb, hne, rfl⟩)

/-- The languages that the variables derive are closed. -/
theorem closed_language (g : Grammar) : g.Closed g.language := by
  intro v
  -- The initial nonterminal of the rewrite rules has no part in the steps.
  exact (g.closed_iff v g.language).mpr (g.rewriting v).formLanguage_derived_le v

/-- No closed assignment is below the languages that the variables derive. -/
theorem language_le_of_closed (g : Grammar) (I : Interpretation) (hI : g.Closed I)
    (v : Variable) : g.language v ≤ I v :=
  (g.rewriting v).derived_le I ((g.closed_iff v I).mp hI) v

theorem language_le_of_mem (g : Grammar) (v : Variable) (body : Body)
    (hb : body ∈ g.alternatives v) (hne : body ≠ []) : body.language g.language ≤ g.language v :=
  g.closed_language v body hb hne

/-- A variable derives exactly the words of its bodies that are not
    zero-length. -/
theorem mem_language_iff (g : Grammar) (v : Variable) (w : List Terminal) :
    w ∈ g.language v ↔
      ∃ body ∈ g.alternatives v, body ≠ [] ∧ w ∈ body.language g.language := by
  constructor
  · -- The right-hand side is a closed assignment below the derived one.
    let I : Interpretation := fun u =>
      {x | ∃ body ∈ g.alternatives u, body ≠ [] ∧ x ∈ body.language g.language}
    have hle : ∀ u, I u ≤ g.language u := fun u x hx => by
      rcases hx with ⟨body, hb, hne, hx⟩
      exact g.language_le_of_mem u body hb hne hx
    have hI : g.Closed I := fun u body hb hne x hx =>
      ⟨body, hb, hne, body.language_mono I g.language (fun u _ => hle u) hx⟩
    exact fun hw => g.language_le_of_closed I hI v hw
  · intro h
    rcases h with ⟨body, hb, hne, hw⟩
    exact g.language_le_of_mem v body hb hne hw

theorem language_of_not_mem_defined (g : Grammar) (v : Variable) (hv : v ∉ g.defined) :
    g.language v = 0 := by
  refine le_antisymm (fun w hw => ?_) bot_le
  rcases (g.mem_language_iff v w).mp hw with ⟨body, hb, _⟩
  rw [g.alternatives_of_not_mem v hv] at hb
  exact absurd hb List.not_mem_nil

theorem language_of_alternatives_eq (g : Grammar) (v : Variable) (body : Body)
    (h : g.alternatives v = [body]) (hne : body ≠ []) :
    g.language v = body.language g.language := by
  ext w
  rw [mem_language_iff, h]
  simp only [List.mem_singleton, exists_eq_left, and_iff_right hne]

end Grammar

end Chomsky
