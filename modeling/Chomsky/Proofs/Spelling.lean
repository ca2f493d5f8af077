import Chomsky.Grammar.Text
import Chomsky.Source.Entry
import Mathlib.Data.List.Forall2

/-!
# Spelling

Bodies that are written character by character.

A symbol of a source is a single character, and the character alone decides whether
it is a variable. Such a body and its text determine each other, which no longer
holds once longer names come in: then the text does not show where a symbol ends.

Reading an alternative gives the body that the alternative spells as long as nothing
is trimmed off and there is no marker in it. Whatever the alternative is, what comes
out of it is spelled by characters of the alternative, or it is the empty production.

## Main definitions

* `Symbol.Spells`, `Body.Spells`: A symbol is a character, and a body a text.

## Theorems

* `Symbol.spells_iff`, `Body.spells_iff`: A text is spelled by one body only.
* `Body.text_of_spells`: The text of a body is the text that it spells.
* `epsilon_not_mem_of_spells`: A text without a marker is spelled without one.
* `readAlternative_of_spells`: Reading a text gives the body that spells it.
* `readAlternative_cases`: What reading any text gives.
-/

namespace Chomsky

/-- The text of the symbol is a single character, and the symbol is a variable exactly
    if that character is an uppercase letter of ASCII. -/
def Symbol.Spells (s : Symbol) (c : Char) : Prop :=
  s.text = String.singleton c ∧ (s.asVariable.isSome = true ↔ 'A' ≤ c ∧ c ≤ 'Z')

/-- The symbols of a body are the characters of a text, one after the other. -/
def Body.Spells (body : Body) (cs : List Char) : Prop := List.Forall₂ Symbol.Spells body cs

namespace Symbol

theorem isUpper_iff (c : Char) : c.isUpper = true ↔ 'A' ≤ c ∧ c ≤ 'Z' :=
  decide_eq_true_iff

theorem spells_classify (c : Char) : (classify c).Spells c := by
  unfold classify
  split
  · next hupper => exact ⟨rfl, fun _ => (isUpper_iff c).mp hupper, fun _ => rfl⟩
  · next hupper =>
      refine ⟨rfl, fun h => absurd h Bool.false_ne_true, fun h => ?_⟩
      exact absurd ((isUpper_iff c).mpr h) hupper

/-- A character is spelled by one symbol only. -/
theorem spells_iff (s : Symbol) (c : Char) : s.Spells c ↔ s = classify c := by
  constructor
  · rintro ⟨htext, hkind⟩
    rw [← isUpper_iff] at hkind
    cases s with
    | terminal t =>
        have hupper : ¬ c.isUpper = true := fun h => Bool.false_ne_true (hkind.mpr h)
        rw [classify, if_neg hupper, ← htext]
        rfl
    | nonterminal v =>
        rw [classify, if_pos (hkind.mp rfl), ← htext]
        rfl
  · rintro rfl
    exact spells_classify c

/-- The marker is a character like any other to the one who spells it. -/
theorem spells_epsilon : epsilon.Spells epsilonMark := by
  rw [spells_iff]
  decide

theorem eq_of_spells (s : Symbol) (c d : Char) (h : s.Spells c)
    (htext : s.text = String.singleton d) : c = d :=
  String.singleton_inj.mp (h.1.symm.trans htext)

end Symbol

namespace Body

/-- A text is spelled by one body only. -/
theorem spells_iff (body : Body) (cs : List Char) :
    body.Spells cs ↔ body = cs.map Symbol.classify := by
  have hsymbol : Symbol.Spells = fun s c => s = Symbol.classify c := by
    funext s c
    exact propext (s.spells_iff c)
  rw [Spells, hsymbol, ← List.forall₂_map_right_iff, List.forall₂_eq_eq_eq]

/-- Each symbol of a body is one of the characters that the body spells. -/
theorem exists_of_spells (body : Body) (cs : List Char) (h : body.Spells cs) (s : Symbol)
    (hs : s ∈ body) : ∃ c ∈ cs, s.Spells c := by
  rw [spells_iff] at h
  rw [h] at hs
  rcases List.mem_map.mp hs with ⟨c, hc, rfl⟩
  exact ⟨c, hc, Symbol.spells_classify c⟩

/-- The text of a body is the text that it spells. -/
theorem text_of_spells (body : Body) (cs : List Char) (h : body.Spells cs) :
    body.text "" = String.ofList cs := by
  rw [← String.toList_inj, String.toList_ofList, text, String.toList_intercalate]
  induction h with
  | nil => rfl
  | @cons s c rest cs hs hrest ih =>
      rw [List.map_cons, List.map_cons, hs.1, String.toList_singleton]
      cases hrest with
      | nil => rfl
      | cons =>
          rw [List.map_cons, List.map_cons, List.intercalate_cons_cons, ← List.map_cons,
            ← List.map_cons, ih]
          rfl

end Body

theorem epsilon_not_mem_of_spells (body : Body) (cs : List Char) (h : body.Spells cs)
    (hmark : epsilonMark ∉ cs) : .epsilon ∉ body := by
  intro hmem
  rcases body.exists_of_spells cs h _ hmem with ⟨c, hc, hspells⟩
  rw [Symbol.eq_of_spells _ c epsilonMark hspells Symbol.spells_epsilon.1] at hc
  exact hmark hc

/-- A text without markers denotes the body that spells what trimming leaves of it. -/
theorem readAlternative_of_spells (text : String) (body : Body) (h : body.Spells (trim text.toList))
    (hmark : epsilonMark ∉ trim text.toList) : readAlternative text = body := by
  have hkept : (trim text.toList).filter (· != epsilonMark) = trim text.toList := by
    refine List.filter_eq_self.mpr fun c hc => ?_
    exact bne_iff_ne.mpr fun e => hmark (e ▸ hc)
  rw [readAlternative, hkept, List.contains_eq_mem, decide_eq_false hmark, Bool.and_false,
    if_neg Bool.false_ne_true]
  exact ((body.spells_iff _).mp h).symm

/-- What reading an alternative gives is the empty production, or it is spelled by
    characters of the alternative that are no markers. -/
theorem readAlternative_cases (text : String) : readAlternative text = [.epsilon] ∨
    ∃ cs, (readAlternative text).Spells cs ∧ epsilonMark ∉ cs ∧ ∀ c ∈ cs, c ∈ text.toList := by
  simp only [readAlternative]
  split
  · exact Or.inl rfl
  · refine Or.inr ⟨_, (Body.spells_iff _ _).mpr rfl, fun hmark => ?_, fun c hc => ?_⟩
    · exact bne_iff_ne.mp (List.mem_filter.mp hmark).2 rfl
    · exact (trim_isInfix text.toList).mem (List.mem_filter.mp hc).1

end Chomsky
