import Chomsky.Source.Entry

/-!
# Entries up to Blanks

Which differences between entries the grammar of a source does not show.

An alternative is trimmed before anything else is done with it, so blanks at its
ends reach neither its body nor a warning. Entries that become the same once their
alternatives are trimmed stand for the same grammar with the same warnings. Two
readings can thus be compared without regard to what separates their alternatives.

Where an entry stands matters for a line without a left-hand side only, and there
for nothing but the number in its warning.

## Main definitions

* `trimText`: A text without blanks at either end.
* `Entry.trimmed`: An entry with its alternatives trimmed.
* `Entry.later`, `Warning.later`: An entry some lines further down, and a warning.

## Theorems

* `ofEntries_congr`: Blanks at the ends of alternatives do not matter.
* `Entry.rule?_later`, `Entry.warnings_later`: What moving an entry down does.
-/

namespace Chomsky

/-- A text without the blanks at either end. -/
def trimText (text : String) : String := String.ofList (trim text.toList)

@[simp] theorem trim_trimText (text : String) : trim (trimText text).toList = trim text.toList := by
  rw [trimText, String.toList_ofList, trim_trim]

@[simp] theorem readAlternative_trimText (text : String) :
    readAlternative (trimText text) = readAlternative text := by
  rw [readAlternative, trim_trimText, readAlternative]

@[simp] theorem alternativeWarnings_trimText (lhs : Variable) (index : Nat) (text : String) :
    alternativeWarnings lhs index (trimText text) = alternativeWarnings lhs index text := by
  rw [alternativeWarnings, dropsEpsilon, trim_trimText, readAlternative_trimText,
    alternativeWarnings, dropsEpsilon]

namespace Entry

/-- An entry with its alternatives trimmed. -/
def trimmed : Entry → Entry
  | rule lhs alternatives => rule lhs (alternatives.map trimText)
  | nameless line => nameless line
  | skipped line => skipped line

@[simp] theorem rule?_trimmed (e : Entry) : e.trimmed.rule? = e.rule? := by
  cases e with
  | rule lhs alternatives =>
      simp [trimmed, rule?]
  | nameless line => rfl
  | skipped line => rfl

@[simp] theorem warnings_trimmed (e : Entry) : e.trimmed.warnings = e.warnings := by
  cases e with
  | rule lhs alternatives =>
      simp [trimmed, warnings, List.zipIdx_map, List.flatMap_map]
  | nameless line => rfl
  | skipped line => rfl

end Entry

theorem ofEntries_trimmed (entries : List Entry) :
    Parsed.ofEntries (entries.map Entry.trimmed) = Parsed.ofEntries entries := by
  have hrules : Entry.rule? ∘ Entry.trimmed = Entry.rule? := funext Entry.rule?_trimmed
  simp only [Parsed.ofEntries, List.filterMap_map, hrules, List.flatMap_map, Entry.warnings_trimmed]

/-- Entries that only differ in blanks at the ends of alternatives come to the same. -/
theorem ofEntries_congr (entries others : List Entry)
    (h : entries.map Entry.trimmed = others.map Entry.trimmed) :
    Parsed.ofEntries entries = Parsed.ofEntries others := by
  rw [← ofEntries_trimmed entries, h, ofEntries_trimmed]

/-- A warning about a text that stands `n` lines further down. -/
def Warning.later (n : Nat) : Warning → Warning
  | emptyAlternative lhs index => emptyAlternative lhs index
  | epsilonDropped lhs index => epsilonDropped lhs index
  | missingLeftHandSide line => missingLeftHandSide (line + n)
  | unknownStartSymbol start => unknownStartSymbol start

namespace Entry

/-- An entry that stands `n` lines further down. -/
def later (n : Nat) : Entry → Entry
  | rule lhs alternatives => rule lhs alternatives
  | nameless line => nameless (line + n)
  | skipped line => skipped (line + n)

@[simp] theorem rule?_later (n : Nat) (e : Entry) : (e.later n).rule? = e.rule? := by
  cases e <;> rfl

theorem map_later_alternativeWarnings (n : Nat) (lhs : Variable) (index : Nat) (text : String) :
    (alternativeWarnings lhs index text).map (Warning.later n) =
      alternativeWarnings lhs index text := by
  simp only [alternativeWarnings, List.map_append, apply_ite (List.map (Warning.later n)),
    List.map_nil, List.map_singleton, Warning.later]

@[simp] theorem warnings_later (n : Nat) (e : Entry) :
    (e.later n).warnings = e.warnings.map (Warning.later n) := by
  cases e with
  | rule lhs alternatives =>
      simp only [later, warnings, List.map_flatMap, map_later_alternativeWarnings]
  | nameless line => rfl
  | skipped line => rfl

end Entry

end Chomsky
