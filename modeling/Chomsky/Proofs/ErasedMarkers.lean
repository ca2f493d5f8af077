import Chomsky.Proofs.Spelling
import Chomsky.Source.Basic
import Mathlib.Data.List.Induction
import Mathlib.Data.List.TakeWhile

/-!
# Alternatives Without Their Markers

A marker `ε` in an alternative with other characters stands for nothing, so it should
make no difference whether it is written at all. It does make one next to a blank.

Reading an alternative trims it first and drops the markers from what is left. A blank
is trimmed only if nothing but blanks is between it and the end of the text, and for
that a marker counts as something. So a marker in front of the first blanks shields
them, and once the marker has been dropped they stand at the end of the body, as
terminals. Without the marker they would have been trimmed. In `ε a` the body is a
blank and an `a`, while in ` a` it is the `a` alone.

This is all that can happen. Between the ends the order of trimming and dropping does
not matter, so the two bodies differ by shielded blanks at either end, and they are the
same exactly if there are none: if what is left of the text after trimming and after
dropping begins and ends with characters that are no blanks.

## Main definitions

* `eraseMarkers`: A text with its markers deleted.
* `keptCharacters`: What is left of a text when it is trimmed first and loses its
  markers afterwards.

## Theorems

* `trim_append_of_isBlank`: Blanks at both ends do not count.
* `exists_append_trim`: A text is what trimming leaves of it, between blanks.
* `trim_filter`: Trimming again what was trimmed before some characters went.
* `readAlternative_eraseMarkers`: The body without the markers.
* `readAlternative_eraseMarkers_iff`: When the markers make no difference.
-/

namespace Chomsky

theorem trim_append_of_isBlank (front cs back : List Char) (hfront : ∀ c ∈ front, isBlank c = true)
    (hback : ∀ c ∈ back, isBlank c = true) : trim (front ++ cs ++ back) = trim cs := by
  induction front with
  | nil =>
      -- The blanks behind the text go one by one, the last one first.
      induction back using List.reverseRecOn with
      | nil => rw [List.nil_append, List.append_nil]
      | append_singleton back c ih =>
          rw [← List.append_assoc, trim_concat_of_isBlank _ c (hback c (by simp))]
          exact ih fun d hd => hback d (List.mem_append_left [c] hd)
  | cons c front ih =>
      rw [List.cons_append, List.cons_append, trim_cons_of_isBlank c _ (hfront c List.mem_cons_self)]
      exact ih fun d hd => hfront d (List.mem_cons_of_mem c hd)

/-- A text is what trimming leaves of it, between blanks. -/
theorem exists_append_trim (cs : List Char) : ∃ front back, cs = front ++ trim cs ++ back ∧
    (∀ c ∈ front, isBlank c = true) ∧ ∀ c ∈ back, isBlank c = true := by
  refine ⟨cs.takeWhile isBlank, ((cs.dropWhile isBlank).reverse.takeWhile isBlank).reverse, ?_,
    fun c hc => List.mem_takeWhile_imp hc, fun c hc => ?_⟩
  · rw [trim, List.append_assoc, ← List.reverse_append, List.takeWhile_append_dropWhile,
      List.reverse_reverse, List.takeWhile_append_dropWhile]
  · exact List.mem_takeWhile_imp (List.mem_reverse.mp hc)

/-- What is deleted between the ends of a text does not keep the blanks at its ends from
    being trimmed. -/
theorem trim_filter (keep : Char → Bool) (cs : List Char) :
    trim (cs.filter keep) = trim ((trim cs).filter keep) := by
  rcases exists_append_trim cs with ⟨front, back, hcs, hfront, hback⟩
  rw [congrArg (List.filter keep) hcs, List.filter_append, List.filter_append]
  exact trim_append_of_isBlank _ _ _ (fun c hc => hfront c (List.mem_of_mem_filter hc))
    fun c hc => hback c (List.mem_of_mem_filter hc)

/-- A text with its markers deleted. -/
def eraseMarkers (text : String) : String := String.ofList (text.toList.filter (· != epsilonMark))

/-- The characters that the body of an alternative is read from: the trimmed text without
    its markers. -/
def keptCharacters (text : String) : List Char := (trim text.toList).filter (· != epsilonMark)

theorem readAlternative_of_keptCharacters (text : String) (h : keptCharacters text ≠ []) :
    readAlternative text = (keptCharacters text).map Symbol.classify := by
  have hsome : ((keptCharacters text).map Symbol.classify).isEmpty = false := by simp [h]
  rw [keptCharacters] at hsome
  rw [readAlternative, hsome, Bool.false_and, if_neg Bool.false_ne_true, keptCharacters]

theorem toList_eraseMarkers (text : String) :
    (eraseMarkers text).toList = text.toList.filter (· != epsilonMark) := String.toList_ofList

/-- With the markers deleted beforehand, trimming has the last word. -/
theorem readAlternative_eraseMarkers (text : String) :
    readAlternative (eraseMarkers text) = (trim (keptCharacters text)).map Symbol.classify := by
  have htrim : trim (eraseMarkers text).toList = trim (keptCharacters text) := by
    rw [toList_eraseMarkers, trim_filter, keptCharacters]
  refine readAlternative_of_spells _ _ ?_ ?_
  · rw [htrim, Body.spells_iff]
  · intro hmark
    have hmem := (trim_isInfix _).mem hmark
    rw [toList_eraseMarkers, List.mem_filter] at hmem
    exact bne_iff_ne.mp hmem.2 rfl

/-- A character that is neither a marker nor a blank is kept. -/
theorem keptCharacters_ne_nil (text : String)
    (h : ∃ c ∈ text.toList, c ≠ epsilonMark ∧ isBlank c = false) : keptCharacters text ≠ [] := by
  rcases h with ⟨c, hc, hmark, hblank⟩
  rcases exists_append_trim text.toList with ⟨front, back, htext, hfront, hback⟩
  rw [htext, List.mem_append, List.mem_append] at hc
  have hne : ¬ isBlank c = true := Bool.eq_false_iff.mp hblank
  -- It is not among the blanks that have been trimmed.
  rcases hc with (hc | hc) | hc
  · exact absurd (hfront c hc) hne
  · exact List.ne_nil_of_mem (List.mem_filter.mpr ⟨hc, bne_iff_ne.mpr hmark⟩)
  · exact absurd (hback c hc) hne

/-- Reading an alternative gives the body of the same text without its markers, between
    blanks that the markers have shielded from trimming. The two bodies are the same
    exactly if neither the first nor the last of the characters that are left is a
    blank. -/
theorem readAlternative_eraseMarkers_iff (text : String)
    (h : ∃ c ∈ text.toList, c ≠ epsilonMark ∧ isBlank c = false) :
    (∃ front back : List Char, (∀ c ∈ front ++ back, isBlank c = true) ∧
      readAlternative text = front.map Symbol.classify ++
        readAlternative (eraseMarkers text) ++ back.map Symbol.classify) ∧
    (readAlternative text = readAlternative (eraseMarkers text) ↔
      Trimmed ((trim text.toList).filter (· != epsilonMark))) := by
  rw [readAlternative_of_keptCharacters text (keptCharacters_ne_nil text h),
    readAlternative_eraseMarkers]
  constructor
  · rcases exists_append_trim (keptCharacters text) with ⟨front, back, hkept, hfront, hback⟩
    refine ⟨front, back, fun c hc => (List.mem_append.mp hc).elim (hfront c) (hback c), ?_⟩
    rw [← List.map_append, ← List.map_append, ← hkept]
  · rw [← trim_eq_self_iff, ← keptCharacters]
    constructor
    · intro heq
      -- What trimming leaves is a part of the text, and as long as the text.
      have hlength := congrArg List.length heq
      rw [List.length_map, List.length_map] at hlength
      exact (trim_isInfix _).eq_of_length hlength.symm
    · intro heq
      rw [heq]

theorem readAlternative_markerBetween :
    readAlternative "a ε b ε" ≠ readAlternative (eraseMarkers "a ε b ε") ∧
      readAlternative "aε b" = readAlternative (eraseMarkers "aε b") := by
  refine ⟨fun heq => ?_, ?_⟩
  · have h := (readAlternative_eraseMarkers_iff "a ε b ε" ⟨'a', by decide⟩).2.mp heq
    exact absurd h (by decide)
  · exact (readAlternative_eraseMarkers_iff "aε b" ⟨'a', by decide⟩).2.mpr (by decide)

/-- A blank behind a marker becomes a terminal, and without the marker it is trimmed. -/
theorem blank_behind_marker :
    (∃ c ∈ "ε a".toList, c ≠ epsilonMark ∧ isBlank c = false) ∧
    readAlternative "ε a" = [.terminal ⟨" "⟩, .terminal ⟨"a"⟩] ∧
    readAlternative (eraseMarkers "ε a") = [.terminal ⟨"a"⟩] ∧
    (parse .text "S -> ε a").map (fun p => p.grammar.rules) =
      .ok [(⟨"S"⟩, [[.terminal ⟨" "⟩, .terminal ⟨"a"⟩]])] ∧
    (parse .text "S ->  a").map (fun p => p.grammar.rules) =
      .ok [(⟨"S"⟩, [[.terminal ⟨"a"⟩]])] :=
  ⟨⟨'a', by decide⟩, by decide, by decide, by rfl, by rfl⟩

end Chomsky
