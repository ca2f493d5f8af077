import Chomsky.Text.Pieces

/-!
# Lines

A text as a list of lines. A newline ends a line, and so does a carriage return
directly followed by one. A carriage return anywhere else is part of its line.
The last line needs no newline, and a newline at the very end starts no further
line.

Seen from the pieces between the newlines, this means two things. A piece that a
newline follows loses a carriage return at its end, and the piece behind the last
newline is a line unless it is empty.

## Main definitions

* `lines`: The lines of a text, without their ends.
* `dropReturn`: A line without the carriage return at its end.

## Theorems

* `exists_lines_eq`: The lines of a text from the pieces between its newlines.
-/

namespace Chomsky

/-- Put a character in front of the first line, or begin one with it. -/
def consLine (c : Char) : List (List Char) → List (List Char)
  | [] => [[c]]
  | line :: rest => (c :: line) :: rest

/-- The lines of a text. -/
def lines : List Char → List (List Char)
  | [] => []
  | '\n' :: rest => [] :: lines rest
  | '\r' :: '\n' :: rest => [] :: lines rest
  | c :: rest => consLine c (lines rest)

/-- A line without the carriage return at its end, if there is one. -/
def dropReturn (line : List Char) : List Char :=
  if line.getLast? = some '\r' then line.dropLast else line

theorem dropReturn_cons (c : Char) (line : List Char) (h : c = '\r' → line ≠ []) :
    dropReturn (c :: line) = c :: dropReturn line := by
  cases line with
  | nil =>
      have hc : [c].getLast? ≠ some '\r' := fun e => h (Option.some.inj e) rfl
      rw [dropReturn, if_neg hc]
      rfl
  | cons d rest =>
      simp only [dropReturn, List.getLast?_cons_cons, List.dropLast_cons_cons]
      split <;> rfl

/-- Each piece that a newline follows is a line once its carriage return is dropped,
    and the last piece is a line if it is not empty. -/
theorem exists_lines_eq (cs : List Char) : ∃ front last, cs.splitOn '\n' = front ++ [last] ∧
    lines cs = front.map dropReturn ++ if last = [] then [] else [last] := by
  induction cs using lines.induct with
  | case1 => exact ⟨[], [], rfl, rfl⟩
  | case2 rest ih =>
      rcases ih with ⟨front, last, hsplit, hlines⟩
      refine ⟨[] :: front, last, ?_, ?_⟩
      · rw [splitOn_cons_self, hsplit, List.cons_append]
      · rw [lines, hlines]
        rfl
  | case3 rest ih =>
      rcases ih with ⟨front, last, hsplit, hlines⟩
      refine ⟨['\r'] :: front, last, ?_, ?_⟩
      · have hrest : ('\n' :: rest).splitOn '\n' = [] :: (front ++ [last]) := by
          rw [splitOn_cons_self, hsplit]
        exact splitOn_cons_of_ne '\n' '\r' (by decide) _ [] _ hrest
      · rw [lines, hlines]
        rfl
  | case4 c rest hnewline hreturn ih =>
      rcases ih with ⟨front, last, hsplit, hlines⟩
      have hcons : lines (c :: rest) = consLine c (lines rest) := by
        rw [lines]
        · exact hnewline
        · exact hreturn
      cases front with
      | nil =>
          refine ⟨[], c :: last, splitOn_cons_of_ne '\n' c hnewline rest last [] hsplit, ?_⟩
          rw [hcons, hlines, if_neg (List.cons_ne_nil c last)]
          split
          · next hlast =>
              rw [hlast]
              rfl
          · rfl
      | cons piece pieces =>
          refine ⟨(c :: piece) :: pieces, last,
            splitOn_cons_of_ne '\n' c hnewline rest piece _ hsplit, ?_⟩
          -- A carriage return in front of an empty piece would have ended the line.
          have hkeep : dropReturn (c :: piece) = c :: dropReturn piece := by
            refine dropReturn_cons c piece fun hc hp => ?_
            have hmore : pieces ++ [last] ≠ [] :=
              List.append_ne_nil_of_right_ne_nil pieces (List.cons_ne_nil last [])
            rw [hp, List.cons_append] at hsplit
            rcases exists_eq_cons_of_splitOn '\n' rest _ hmore hsplit with ⟨tail, htail⟩
            exact hreturn tail hc htail
          rw [hcons, hlines, List.map_cons, List.map_cons, hkeep]
          rfl

end Chomsky
