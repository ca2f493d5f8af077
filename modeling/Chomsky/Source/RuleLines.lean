import Chomsky.Source.Entry
import Chomsky.Text.Lines

/-!
# Rule Lines

The line form of a grammar source: `A -> x | y`, one rule in a line.

The first arrow of a line separates the left-hand side from the alternatives,
and every bar behind it separates two of them. A line without an arrow holds no
rule. Any text will do as a left-hand side as long as something is left of it
after trimming.

## Main definitions

* `splitArrow`: A line at its first arrow.
* `lineEntry`: The entry of a line.
* `lineEntries`: The entries of a source.

## Theorems

* `splitArrow_append`: An arrow behind a text without one is the first arrow.
* `splitArrow_concat`: A further character only makes the alternatives longer.
* `eq_append_of_splitArrow`: A line is put together from its two sides.
* `splitArrow_eq_none_iff`: Having no arrow is not containing the two characters.
* `lineEntry_of_none`, `lineEntry_of_some`: The entry of a line by its first arrow.
-/

namespace Chomsky

/-- What precedes and what follows the first arrow of a line. -/
def splitArrow : List Char → Option (List Char × List Char)
  | [] => none
  | '-' :: '>' :: rest => some ([], rest)
  | c :: rest => (splitArrow rest).map fun p => (c :: p.1, p.2)

theorem splitArrow_cons (c : Char) (rest : List Char) (h : c = '-' → rest.head? ≠ some '>') :
    splitArrow (c :: rest) = (splitArrow rest).map fun p => (c :: p.1, p.2) := by
  rw [splitArrow]
  intro tail hc htail
  exact h hc (by rw [htail, List.head?_cons])

/-- A text without an arrow has none in front of its second character either. -/
theorem splitArrow_tail_of_eq_none (c : Char) (rest : List Char) (h : splitArrow (c :: rest) = none) :
    (c = '-' → rest.head? ≠ some '>') ∧ splitArrow rest = none := by
  have hhead : c = '-' → rest.head? ≠ some '>' := by
    rintro rfl hhead
    cases rest with
    | nil => exact absurd hhead.symm (Option.some_ne_none _)
    | cons d tail =>
        rw [List.head?_cons, Option.some.injEq] at hhead
        rw [hhead, splitArrow] at h
        exact absurd h (Option.some_ne_none _)
  rw [splitArrow_cons c rest hhead, Option.map_eq_none_iff] at h
  exact ⟨hhead, h⟩

/-- An arrow behind a text without one is the first arrow. -/
theorem splitArrow_append (lhs rhs : List Char) (h : splitArrow lhs = none) :
    splitArrow (lhs ++ '-' :: '>' :: rhs) = some (lhs, rhs) := by
  induction lhs with
  | nil => rfl
  | cons c rest ih =>
      rcases splitArrow_tail_of_eq_none c rest h with ⟨hhead, hrest⟩
      have hnext : c = '-' → (rest ++ '-' :: '>' :: rhs).head? ≠ some '>' := by
        cases rest with
        | nil => exact fun _ e => absurd (Option.some.inj e) (by decide)
        | cons d tail => exact hhead
      rw [List.cons_append, splitArrow_cons c _ hnext, ih hrest]
      rfl

/-- One more character changes nothing about the first arrow, unless it completes one. -/
theorem splitArrow_concat (cs : List Char) (c : Char) (h : c ≠ '>') :
    splitArrow (cs ++ [c]) = (splitArrow cs).map fun p => (p.1, p.2 ++ [c]) := by
  induction cs using splitArrow.induct with
  | case1 => exact splitArrow_cons c [] (fun _ => by decide)
  | case2 rest => rfl
  | case3 d rest hd ih =>
      have hhead : d = '-' → rest.head? ≠ some '>' := by
        intro hc hrest
        rcases List.head?_eq_some_iff.mp hrest with ⟨tail, htail⟩
        exact hd tail hc htail
      have hnext : d = '-' → (rest ++ [c]).head? ≠ some '>' := by
        cases rest with
        | nil => exact fun _ e => h (Option.some.inj e)
        | cons e tail => exact hhead
      rw [List.cons_append, splitArrow_cons d _ hnext, ih, splitArrow_cons d rest hhead,
        Option.map_map, Option.map_map]
      rfl

/-- The first arrow of a line, with no other in front of it. -/
theorem eq_append_of_splitArrow (cs lhs rhs : List Char) (h : splitArrow cs = some (lhs, rhs)) :
    cs = lhs ++ '-' :: '>' :: rhs ∧ splitArrow lhs = none := by
  induction cs using splitArrow.induct generalizing lhs with
  | case1 => exact absurd h.symm (Option.some_ne_none _)
  | case2 rest =>
      rw [splitArrow, Option.some.injEq, Prod.mk.injEq] at h
      exact ⟨by rw [← h.1, ← h.2]; rfl, by rw [← h.1]; rfl⟩
  | case3 c rest hc ih =>
      have hhead : c = '-' → rest.head? ≠ some '>' := by
        intro hd hrest
        rcases List.head?_eq_some_iff.mp hrest with ⟨tail, htail⟩
        exact hc tail hd htail
      rw [splitArrow_cons c rest hhead, Option.map_eq_some_iff] at h
      rcases h with ⟨⟨front, back⟩, hrest, hp⟩
      rw [Prod.mk.injEq] at hp
      rcases hp with ⟨rfl, rfl⟩
      rcases ih front hrest with ⟨rfl, hnone⟩
      refine ⟨rfl, ?_⟩
      have hfront : c = '-' → front.head? ≠ some '>' := by
        cases front with
        | nil => exact fun _ => by decide
        | cons d tail => exact hhead
      rw [splitArrow_cons c front hfront, hnone, Option.map_none]

/-- Having an arrow is containing the two characters of one. -/
theorem splitArrow_eq_none_iff (cs : List Char) : splitArrow cs = none ↔ ¬ ['-', '>'] <:+: cs := by
  constructor
  · rintro h ⟨front, back, rfl⟩
    -- If there is no arrow in front of this one, then this is the first.
    rw [List.append_assoc] at h
    cases hfront : splitArrow front with
    | none =>
        rw [List.cons_append, List.singleton_append, splitArrow_append front back hfront] at h
        exact Option.some_ne_none _ h
    | some p =>
        rcases eq_append_of_splitArrow front p.1 p.2 hfront with ⟨hp, hnone⟩
        rw [hp, List.append_assoc, List.cons_append, List.cons_append,
          splitArrow_append p.1 _ hnone] at h
        exact Option.some_ne_none _ h
  · intro h
    cases hcs : splitArrow cs with
    | none => rfl
    | some p =>
        refine absurd ?_ h
        rw [(eq_append_of_splitArrow cs p.1 p.2 hcs).1]
        exact ⟨p.1, p.2, by simp only [List.append_assoc, List.cons_append, List.nil_append]⟩

/-- The entry of the line with the given number. A blank line has none. -/
def lineEntry (number : Nat) (line : List Char) : Option Entry :=
  match splitArrow line with
  | none => if (trim line).isEmpty then none else some (.skipped number)
  | some (lhs, rhs) =>
      if (trim lhs).isEmpty then some (.nameless number)
      else some (.rule ⟨String.ofList (trim lhs)⟩ ((rhs.splitOn '|').map String.ofList))

/-- A line without an arrow holds no rule. -/
theorem lineEntry_of_none (number : Nat) (line : List Char) (h : splitArrow line = none) :
    lineEntry number line = if (trim line).isEmpty then none else some (.skipped number) := by
  rw [lineEntry, h]

theorem lineEntry_of_some (number : Nat) (line lhs rhs : List Char)
    (h : splitArrow line = some (lhs, rhs)) :
    lineEntry number line =
      if (trim lhs).isEmpty then some (.nameless number)
      else some (.rule ⟨String.ofList (trim lhs)⟩ ((rhs.splitOn '|').map String.ofList)) := by
  rw [lineEntry, h]

/-- The entries of a source in line form. Lines are counted from one. -/
def lineEntries (source : String) : List Entry :=
  ((lines source.toList).zipIdx 1).filterMap fun l => lineEntry l.2 l.1

end Chomsky
