import Chomsky.Proofs.Entries
import Chomsky.Proofs.Redefinition
import Chomsky.Source.Basic
import Mathlib.Data.List.Basic

/-!
# Line by Line

Every line of a source counts for itself.

Lines end in a newline or in a carriage return and a newline, and the last one may
end in neither. For the grammar it is enough to cut the source at its newlines. A
carriage return that stays at the end of a piece is a blank behind the alternatives,
or behind nothing at all, and an empty piece at the very end has no entry.

Pieces, unlike lines, are those of two sources in a row when one source stands
before a newline and the other one behind. What such a source says is thus what the
first one says and then what the second one says, with the lines of the second
counted from where it begins.

## Main definitions

* `pieceEntries`: The entries of a source that is cut at its newlines.

## Theorems

* `lineEntry_concat`: A blank at the end of a line does not matter.
* `map_trimmed_lineEntries`: The lines of a source say what its pieces say.
* `pieceEntries_append`: The pieces of two sources in a row.
* `parse_append_newline`: The grammar and the warnings of two sources in a row.
-/

namespace Chomsky

theorem ne_of_isBlank (c d : Char) (hc : isBlank c = true) (hd : isBlank d = false) : c ≠ d :=
  fun e => Bool.false_ne_true (hd.symm.trans (e ▸ hc))

/-- A blank at the end of a text is trimmed off its last piece. -/
theorem map_trim_splitOn_concat (cs : List Char) (x c : Char) (hc : isBlank c = true) (hx : c ≠ x) :
    ((cs ++ [c]).splitOn x).map trim = (cs.splitOn x).map trim := by
  -- Only the last piece changes, as the blank is not what the text is split at.
  rcases exists_splitOn_append x cs with ⟨front, last, hsplit, happend⟩
  have hnone : x ∉ [c] := fun h => hx (List.mem_singleton.mp h).symm
  rw [happend [c] hnone, hsplit, List.map_append, List.map_append, List.map_singleton,
    trim_concat_of_isBlank last c hc, List.map_singleton]

theorem map_trimText_map_ofList (pieces : List (List Char)) :
    (pieces.map String.ofList).map trimText = (pieces.map trim).map String.ofList := by
  simp only [List.map_map, Function.comp_def, trimText, String.toList_ofList]

/-- A blank at the end of a line does not matter. -/
theorem lineEntry_concat (number : Nat) (line : List Char) (c : Char) (hc : isBlank c = true) :
    (lineEntry number (line ++ [c])).map Entry.trimmed =
      (lineEntry number line).map Entry.trimmed := by
  -- The blank cannot complete an arrow, so the line is cut where it was cut.
  have harrow := splitArrow_concat line c (ne_of_isBlank c '>' hc (by decide))
  cases hline : splitArrow line with
  | none =>
      rw [hline, Option.map_none] at harrow
      rw [lineEntry_of_none number _ harrow, lineEntry_of_none number line hline,
        trim_concat_of_isBlank line c hc]
  | some p =>
      rw [hline, Option.map_some] at harrow
      -- Behind the arrow it lands in the last alternative, which is trimmed.
      have hpieces := map_trim_splitOn_concat p.2 '|' c hc (ne_of_isBlank c '|' hc (by decide))
      rw [lineEntry_of_some number _ _ _ harrow, lineEntry_of_some number line p.1 p.2 hline]
      by_cases hlhs : (trim p.1).isEmpty = true
      · rw [if_pos hlhs, if_pos hlhs]
      · rw [if_neg hlhs, if_neg hlhs]
        simp only [Option.map_some, Entry.trimmed, map_trimText_map_ofList, hpieces]

theorem lineEntry_dropReturn (number : Nat) (line : List Char) :
    (lineEntry number (dropReturn line)).map Entry.trimmed =
      (lineEntry number line).map Entry.trimmed := by
  unfold dropReturn
  split
  · next hlast =>
      have hline : line = line.dropLast ++ ['\r'] :=
        (List.dropLast_append_getLast? '\r' (Option.mem_def.mpr hlast)).symm
      rw [← lineEntry_concat number line.dropLast '\r' (by decide), ← hline]
  · rfl

/-- The entries of a source that is cut at its newlines, counted from the given
    number. -/
def pieceEntries (number : Nat) (source : List Char) : List Entry :=
  ((source.splitOn '\n').zipIdx number).filterMap fun l => lineEntry l.2 l.1

/-- The lines of a source say what its pieces say, blanks around the alternatives
    aside. -/
theorem map_trimmed_lineEntries (source : String) :
    (lineEntries source).map Entry.trimmed = (pieceEntries 1 source.toList).map Entry.trimmed := by
  -- Lines and pieces are the same up to the last one, but for carriage returns.
  rcases exists_lines_eq source.toList with ⟨front, last, hsplit, hlines⟩
  rw [lineEntries, pieceEntries, hsplit, hlines, List.map_filterMap, List.map_filterMap,
    List.zipIdx_append, List.zipIdx_append, List.filterMap_append, List.filterMap_append,
    List.zipIdx_map, List.filterMap_map, List.length_map]
  congr 1
  · exact List.filterMap_congr fun l _ => lineEntry_dropReturn l.2 l.1
  · -- An empty piece behind the last newline is no line and has no entry.
    split
    · next hlast =>
        rw [hlast]
        rfl
    · rfl

theorem lineEntry_add (number n : Nat) (line : List Char) :
    lineEntry (number + n) line = (lineEntry number line).map (Entry.later n) := by
  unfold lineEntry
  split
  · split <;> rfl
  · split <;> rfl

theorem pieceEntries_add (number n : Nat) (source : List Char) :
    pieceEntries (number + n) source = (pieceEntries number source).map (Entry.later n) := by
  rw [pieceEntries, pieceEntries, List.map_filterMap, Nat.add_comm number n,
    ← List.map_snd_add_zipIdx_eq_zipIdx, List.filterMap_map]
  exact List.filterMap_congr fun l _ => lineEntry_add l.2 n l.1

/-- The pieces of a source in front of a newline and of one behind it. -/
theorem pieceEntries_append (number : Nat) (source more : List Char) :
    pieceEntries number (source ++ '\n' :: more) =
      pieceEntries number source ++
        (pieceEntries number more).map (Entry.later (source.count '\n' + 1)) := by
  rw [← pieceEntries_add, pieceEntries, List.splitOn_append_cons_self, List.zipIdx_append,
    length_splitOn, List.filterMap_append, pieceEntries, pieceEntries]

/-- What a source in line form comes to, read off its pieces. -/
theorem parse_text_eq (source : String) :
    parse .text source = .ok (Parsed.ofEntries (pieceEntries 1 source.toList)) := by
  rw [← ofEntries_congr _ _ (map_trimmed_lineEntries source)]
  rfl

/-- A newline between two sources makes one source that says what the first one says
    and then what the second one says. Where both define a variable the second one
    counts, at the place of the first, and the lines of the second are counted from
    the first line behind the newline. -/
theorem parse_append_newline (source more : String) :
    ∃ first second whole, parse .text source = .ok first ∧ parse .text more = .ok second ∧
      parse .text (source ++ "\n" ++ more) = .ok whole ∧
      whole.grammar.defined = first.grammar.defined ++
        second.grammar.defined.filter (fun v => decide (v ∉ first.grammar.defined)) ∧
      (∀ v, whole.grammar.alternatives v =
        if v ∈ second.grammar.defined then second.grammar.alternatives v
        else first.grammar.alternatives v) ∧
      whole.warnings = first.warnings ++
        second.warnings.map (Warning.later (source.toList.count '\n' + 1)) := by
  refine ⟨_, _, _, parse_text_eq source, parse_text_eq more, parse_text_eq _, ?_⟩
  have hchars : (source ++ "\n" ++ more).toList = source.toList ++ '\n' :: more.toList := by
    rw [String.toList_append, String.toList_append, List.append_assoc]
    rfl
  rw [hchars, pieceEntries_append]
  -- What is left is about two lists of entries, of which the second one is counted on.
  generalize pieceEntries 1 source.toList = first
  generalize pieceEntries 1 more.toList = second
  generalize source.toList.count '\n' + 1 = n
  -- Counting on changes no rule, and of a warning only its line.
  have hrules : (second.map (Entry.later n)).filterMap Entry.rule? = second.filterMap Entry.rule? := by
    simp only [List.filterMap_map, Function.comp_def, Entry.rule?_later]
  have hwarnings : (second.map (Entry.later n)).flatMap Entry.warnings =
      (second.flatMap Entry.warnings).map (Warning.later n) := by
    simp only [List.flatMap_map, Entry.warnings_later, List.map_flatMap]
  simp only [Parsed.ofEntries, List.filterMap_append, List.flatMap_append, hrules, hwarnings,
    Grammar.ofRules_append]
  exact ⟨Grammar.defined_defineAll _ _, Grammar.alternatives_defineAll _ _, trivial⟩

end Chomsky
