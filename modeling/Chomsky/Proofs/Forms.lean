import Chomsky.Proofs.RuleLines
import Mathlib.Data.List.Infix

/-!
# The Two Forms

A list of rules written in either form.

Written out, a rule is its left-hand side, an arrow, and its alternatives with bars
between them. There is a blank on either side of an arrow or a bar, which is why an
alternative may begin or end in a character that would make an arrow with its
neighbour, or in a carriage return. What comes back is trimmed, and it is trimmed in
a rule object as well, so both forms have the same entries up to blanks around the
alternatives. That is all the grammar and the warnings depend on.

Not every rule can be written in a line. The left-hand side must not hold an arrow,
an alternative must not hold a bar, and neither may hold a newline. A line has always
one alternative, if perhaps an empty one.

## Main definitions

* `Writable`: A left-hand side and alternatives that a line can hold.
* `lineText`, `ruleLines`: Rules in line form.
* `ruleObject`: Rules as a JSON object.
* `readValue`: What a JSON value comes to as a source.

## Theorems

* `lineEntry_lineText`: The line of a rule says what the rule says.
* `parse_ruleLines`: What the lines of a list of rules come to.
* `objectEntries_ruleObject`: A rule object has an entry for each rule.
* `parse_ruleLines_eq_ruleObject`: Both forms come to the same.
-/

namespace Chomsky

/-- A left-hand side and alternatives that a line can hold. -/
structure Writable (r : String × List String) : Prop where
  named : trim r.1.toList ≠ []
  /-- The arrow of the line is the one behind the left-hand side. -/
  arrowFree : ¬ ['-', '>'] <:+: r.1.toList
  oneLine : '\n' ∉ r.1.toList
  alternatives_ne_nil : r.2 ≠ []
  plain : ∀ text ∈ r.2, '|' ∉ text.toList ∧ '\n' ∉ text.toList

instance (r : String × List String) : Decidable (Writable r) :=
  decidable_of_iff
    (trim r.1.toList ≠ [] ∧ ¬ ['-', '>'] <:+: r.1.toList ∧ '\n' ∉ r.1.toList ∧ r.2 ≠ [] ∧
      ∀ text ∈ r.2, '|' ∉ text.toList ∧ '\n' ∉ text.toList)
    ⟨fun ⟨hnamed, harrow, hline, hne, hplain⟩ => ⟨hnamed, harrow, hline, hne, hplain⟩,
      fun h => ⟨h.named, h.arrowFree, h.oneLine, h.alternatives_ne_nil, h.plain⟩⟩

/-- A rule in line form. -/
def lineText (r : String × List String) : String := r.1 ++ " -> " ++ " | ".intercalate r.2

/-- Rules in line form, with no newline after the last. -/
def ruleLines (rules : List (String × List String)) : String := "\n".intercalate (rules.map lineText)

/-- Rules as a JSON object. -/
def ruleObject (rules : List (String × List String)) : Json :=
  .object (rules.map fun r => (r.1, .array (r.2.map .string)))

/-- The entry of a rule. -/
def ruleEntry (r : String × List String) : Entry := .rule ⟨trimText r.1⟩ r.2

/-- A character between or in the texts of a list. -/
theorem mem_toList_intercalate (gap : String) (texts : List String) (c : Char)
    (h : c ∈ (gap.intercalate texts).toList) : c ∈ gap.toList ∨ ∃ text ∈ texts, c ∈ text.toList := by
  induction texts with
  | nil => exact absurd h List.not_mem_nil
  | cons text rest ih =>
      -- The case split is that of `intercalate`: a gap comes only in front of another text.
      cases rest with
      | nil =>
          rw [String.intercalate_singleton] at h
          exact Or.inr ⟨text, List.mem_cons_self, h⟩
      | cons next rest =>
          rw [String.intercalate_cons_cons, String.toList_append, String.toList_append,
            List.mem_append, List.mem_append] at h
          rcases h with (h | h) | h
          · exact Or.inr ⟨text, List.mem_cons_self, h⟩
          · exact Or.inl h
          · rcases ih h with h | ⟨other, hother, h⟩
            · exact Or.inl h
            · exact Or.inr ⟨other, List.mem_cons_of_mem text hother, h⟩

/-- Splitting at the bars gives the alternatives back, each with a blank on either
    side. -/
theorem map_trim_splitOn_intercalate (texts : List String) (hne : texts ≠ [])
    (h : ∀ text ∈ texts, '|' ∉ text.toList) :
    ((' ' :: (" | ".intercalate texts).toList).splitOn '|').map trim =
      texts.map fun text => trim text.toList := by
  have hblank : isBlank ' ' = true := by decide
  induction texts with
  | nil => exact absurd rfl hne
  | cons text rest ih =>
      have htext : '|' ∉ ' ' :: text.toList := by
        rw [List.mem_cons, not_or]
        exact ⟨by decide, h text List.mem_cons_self⟩
      cases rest with
      | nil =>
          rw [String.intercalate_singleton, List.splitOn_eq_singleton htext, List.map_singleton,
            trim_cons_of_isBlank ' ' _ hblank, List.map_singleton]
      | cons next rest =>
          -- The blank behind a bar is the one in front of the next text, so the induction
          -- goes on with it, and the blank in front of the bar goes to the first piece.
          have hpiece : '|' ∉ ' ' :: text.toList ++ [' '] := by
            rw [List.mem_append, not_or]
            exact ⟨htext, by decide⟩
          have hchars : ' ' :: (" | ".intercalate (text :: next :: rest)).toList =
              (' ' :: text.toList ++ [' ']) ++
                '|' :: ' ' :: (" | ".intercalate (next :: rest)).toList := by
            simp only [String.intercalate_cons_cons, String.toList_append, List.append_assoc,
              List.cons_append, List.nil_append]
            rfl
          rw [hchars, List.splitOn_append_cons_self_of_not_mem hpiece, List.map_cons,
            trim_concat_of_isBlank _ ' ' hblank, trim_cons_of_isBlank ' ' _ hblank,
            ih (List.cons_ne_nil next rest) fun t ht => h t (List.mem_cons_of_mem text ht)]
          rfl

/-- The line of a rule says what the rule says, blanks around the alternatives
    aside. -/
theorem lineEntry_lineText (number : Nat) (r : String × List String) (h : Writable r) :
    (lineEntry number (lineText r).toList).map Entry.trimmed = some (ruleEntry r).trimmed := by
  -- The line, cut at its first arrow.
  have hchars : (lineText r).toList =
      (r.1.toList ++ [' ']) ++ '-' :: '>' :: ' ' :: (" | ".intercalate r.2).toList := by
    rw [lineText, String.toList_append, String.toList_append, List.append_assoc, List.append_assoc]
    rfl
  have hnone : splitArrow (r.1.toList ++ [' ']) = none := by
    rw [splitArrow_concat _ ' ' (by decide), (splitArrow_eq_none_iff _).mpr h.arrowFree,
      Option.map_none]
  -- On either side of the arrow there is what there was, but for blanks.
  have hlhs : trim (r.1.toList ++ [' ']) = trim r.1.toList :=
    trim_concat_of_isBlank _ ' ' (by decide)
  have hnamed : ¬ (trim r.1.toList).isEmpty = true := fun e => h.named (List.isEmpty_iff.mp e)
  have hpieces := map_trim_splitOn_intercalate r.2 h.alternatives_ne_nil fun t ht => (h.plain t ht).1
  have htexts : (r.2.map fun text => trim text.toList).map String.ofList = r.2.map trimText := by
    rw [List.map_map]
    rfl
  rw [hchars, lineEntry_of_some number _ _ _ (splitArrow_append _ _ hnone), hlhs, if_neg hnamed,
    Option.map_some, Entry.trimmed, map_trimText_map_ofList, hpieces, htexts]
  rfl

theorem newline_not_mem_lineText (r : String × List String) (h : Writable r) :
    '\n' ∉ (lineText r).toList := by
  rw [lineText, String.toList_append, String.toList_append, List.mem_append, List.mem_append,
    not_or, not_or]
  refine ⟨⟨h.oneLine, by decide⟩, fun hmem => ?_⟩
  rcases mem_toList_intercalate _ _ _ hmem with hgap | ⟨text, htext, hnewline⟩
  · exact absurd hgap (by decide)
  · exact (h.plain text htext).2 hnewline

/-- What is done with each element whatever its index. -/
theorem filterMap_zipIdx {α β : Type} (f : α × Nat → Option β) (g : α → β) (xs : List α) (n : Nat)
    (h : ∀ x ∈ xs, ∀ i, f (x, i) = some (g x)) : (xs.zipIdx n).filterMap f = xs.map g := by
  induction xs generalizing n with
  | nil => rfl
  | cons x rest ih =>
      rw [List.zipIdx_cons, List.filterMap_cons_some (h x List.mem_cons_self n),
        ih (n + 1) fun y hy => h y (List.mem_cons_of_mem x hy), List.map_cons]

/-- The lines of a list of rules say what the rules say. -/
theorem map_trimmed_ruleLines (rules : List (String × List String)) (h : ∀ r ∈ rules, Writable r) :
    (lineEntries (ruleLines rules)).map Entry.trimmed = (rules.map ruleEntry).map Entry.trimmed := by
  rw [map_trimmed_lineEntries, pieceEntries, ruleLines]
  cases hrules : rules with
  | nil => rfl
  | cons first others =>
      rw [← hrules]
      -- Splitting at the newlines gives the lines back, since none of them holds one.
      have hne : (rules.map lineText).map String.toList ≠ [] := by
        rw [hrules]
        exact List.cons_ne_nil _ _
      have hplain : ∀ line ∈ (rules.map lineText).map String.toList, '\n' ∉ line := by
        intro line hline
        rw [List.map_map] at hline
        rcases List.mem_map.mp hline with ⟨r, hr, rfl⟩
        exact newline_not_mem_lineText r (h r hr)
      have hsplit : ("\n".intercalate (rules.map lineText)).toList.splitOn '\n' =
          (rules.map lineText).map String.toList := by
        rw [String.toList_intercalate]
        exact List.splitOn_intercalate '\n' hplain hne
      rw [hsplit, List.map_filterMap, List.map_map, List.zipIdx_map, List.filterMap_map, List.map_map]
      exact filterMap_zipIdx _ _ rules 1 fun r hr number => lineEntry_lineText number r (h r hr)

theorem parse_ruleLines (rules : List (String × List String)) (h : ∀ r ∈ rules, Writable r) :
    parse .text (ruleLines rules) = .ok (Parsed.ofEntries (rules.map ruleEntry)) := by
  rw [← ofEntries_congr _ _ (map_trimmed_ruleLines rules h)]
  rfl

theorem mapM_string?_map_string (texts : List String) :
    (texts.map Json.string).mapM Json.string? = some texts := by
  induction texts with
  | nil => rfl
  | cons text rest ih =>
      rw [List.map_cons, List.mapM_cons, ih]
      rfl

theorem memberEntry_array (key : String) (texts : List String) (h : trim key.toList ≠ []) :
    memberEntry key (.array (texts.map .string)) = .ok (ruleEntry (key, texts)) := by
  have hnamed : ¬ (trim key.toList).isEmpty = true := fun e => h (List.isEmpty_iff.mp e)
  simp only [memberEntry, if_neg hnamed, mapM_string?_map_string]
  rfl

/-- A rule object has an entry for each rule. -/
theorem objectEntries_ruleObject (rules : List (String × List String))
    (h : ∀ r ∈ rules, trim r.1.toList ≠ []) :
    objectEntries (ruleObject rules) = (rules.map ruleEntry, none) := by
  rw [ruleObject, objectEntries]
  induction rules with
  | nil => rfl
  | cons r rest ih =>
      -- No member is refused, so the entries of the others follow.
      rw [List.map_cons, memberEntries, memberEntry_array r.1 r.2 (h r List.mem_cons_self),
        ih fun q hq => h q (List.mem_cons_of_mem r hq)]
      rfl

/-- What a JSON value comes to as a source. -/
def readValue (value : Json) : Reading :=
  ⟨(objectEntries value).1, (objectEntries value).2.map .misshapen⟩

theorem parse_json_of_read (source : String) (value : Json)
    (h : Json.read (.withoutComments (textBytes source)) = .ok value) :
    parse .json source = (readValue value).parsed := by
  rw [parse, readSource, readObject, h]
  rfl

/-- A list of rules comes to the same grammar with the same warnings in line form and
    as a JSON object, and so does every JSON source of that object. The left-hand
    sides may coincide once they are trimmed. -/
theorem parse_ruleLines_eq_ruleObject (rules : List (String × List String))
    (h : ∀ r ∈ rules, Writable r) :
    ∃ p, parse .text (ruleLines rules) = .ok p ∧ (readValue (ruleObject rules)).parsed = .ok p ∧
      ∀ source, Json.read (.withoutComments (textBytes source)) = .ok (ruleObject rules) →
        parse .json source = .ok p := by
  have hobject : (readValue (ruleObject rules)).parsed = .ok (Parsed.ofEntries (rules.map ruleEntry)) := by
    rw [readValue, objectEntries_ruleObject rules fun r hr => (h r hr).named]
    rfl
  -- What a source comes to is decided by the value that is read from it.
  refine ⟨_, parse_ruleLines rules h, hobject, fun source hsource => ?_⟩
  rw [parse_json_of_read source _ hsource, hobject]

/-- Rules of which two are for the same variable once they are trimmed. -/
def spacedRules : List (String × List String) :=
  [("A ", ["aεB", " ε", "->\r"]), ("\tA", ["", " x "]), ("-", [">"])]

/-- The same rules in a source with a comment. -/
def spacedSource : String :=
  "\x7b // spaced\n\"A \": [\"aεB\", \" ε\", \"->\\r\"], \"\\tA\": [\"\", \" x \"], \"-\": [\">\"] \x7d"

theorem parse_spacedRules :
    (∀ r ∈ spacedRules, Writable r) ∧
    Json.read (.withoutComments (textBytes spacedSource)) = .ok (ruleObject spacedRules) ∧
    ∃ p, parse .text (ruleLines spacedRules) = .ok p ∧
      (readValue (ruleObject spacedRules)).parsed = .ok p ∧ parse .json spacedSource = .ok p := by
  have hwritable : ∀ r ∈ spacedRules, Writable r := by decide
  have hread : Json.read (.withoutComments (textBytes spacedSource)) =
      .ok (ruleObject spacedRules) := rfl
  rcases parse_ruleLines_eq_ruleObject spacedRules hwritable with ⟨p, htext, hobject, hjson⟩
  exact ⟨hwritable, hread, p, htext, hobject, hjson spacedSource hread⟩

end Chomsky
