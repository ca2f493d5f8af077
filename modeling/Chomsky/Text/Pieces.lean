/-!
# Pieces

A text as the pieces between the occurrences of one character. There is always one
piece more than there are occurrences, and no piece has one.

Text that is put behind another without a separator makes the last piece longer and
leaves the others as they are. It is what makes the end of a text negligible where
the ends of its pieces are.

## Theorems

* `splitOn_cons_self`, `splitOn_cons_of_ne`: The pieces by the first character.
* `length_splitOn`: The number of pieces.
* `not_mem_of_mem_splitOn`: No piece has a separator.
* `mem_of_mem_splitOn`: A piece is made of characters of the text.
* `exists_splitOn_append`: What is put behind a text makes its last piece longer.
* `exists_eq_cons_of_splitOn`: An empty first piece stands before a separator.
-/

namespace Chomsky

section

variable {α : Type} [BEq α] [LawfulBEq α] (x : α)

@[simp] theorem splitOn_cons_self (cs : List α) : (x :: cs).splitOn x = [] :: cs.splitOn x := by
  rw [List.splitOn_cons_eq_if_modifyHead, if_pos (beq_self_eq_true x)]

/-- A character that is no separator belongs to the first piece. -/
theorem splitOn_cons_of_ne (c : α) (h : c ≠ x) (cs first : List α) (others : List (List α))
    (hcs : cs.splitOn x = first :: others) : (c :: cs).splitOn x = (c :: first) :: others := by
  rw [List.splitOn_cons_eq_if_modifyHead, beq_false_of_ne h, if_neg Bool.false_ne_true, hcs,
    List.modifyHead_cons]

theorem exists_splitOn_cons (c : α) (cs : List α) (h : c ≠ x) : ∃ first others,
    cs.splitOn x = first :: others ∧ (c :: cs).splitOn x = (c :: first) :: others := by
  cases hcs : cs.splitOn x with
  | nil => exact absurd hcs (List.splitOn_ne_nil x cs)
  | cons first others => exact ⟨first, others, rfl, splitOn_cons_of_ne x c h cs first others hcs⟩

theorem length_splitOn (cs : List α) : (cs.splitOn x).length = cs.count x + 1 := by
  induction cs with
  | nil => rfl
  | cons c rest ih =>
      by_cases hc : c = x
      · rw [hc, splitOn_cons_self, List.length_cons, ih, List.count_cons_self]
      · rcases exists_splitOn_cons x c rest hc with ⟨first, others, hrest, hcons⟩
        rw [hcons, List.count_cons_of_ne hc, ← ih, hrest, List.length_cons, List.length_cons]

theorem not_mem_of_mem_splitOn (cs piece : List α) (h : piece ∈ cs.splitOn x) : x ∉ piece := by
  induction cs generalizing piece with
  | nil =>
      rw [List.splitOn_nil, List.mem_singleton] at h
      exact h ▸ List.not_mem_nil
  | cons c rest ih =>
      by_cases hc : c = x
      · rw [hc, splitOn_cons_self, List.mem_cons] at h
        rcases h with rfl | h
        · exact List.not_mem_nil
        · exact ih piece h
      · rcases exists_splitOn_cons x c rest hc with ⟨first, others, hrest, hcons⟩
        rw [hrest] at ih
        rw [hcons, List.mem_cons] at h
        rcases h with rfl | h
        · rw [List.mem_cons, not_or]
          exact ⟨fun e => hc e.symm, ih first List.mem_cons_self⟩
        · exact ih piece (List.mem_cons_of_mem first h)

theorem mem_of_mem_splitOn (cs piece : List α) (h : piece ∈ cs.splitOn x) (d : α)
    (hd : d ∈ piece) : d ∈ cs := by
  induction cs generalizing piece with
  | nil =>
      rw [List.splitOn_nil, List.mem_singleton] at h
      exact h ▸ hd
  | cons c rest ih =>
      by_cases hc : c = x
      · rw [hc, splitOn_cons_self, List.mem_cons] at h
        rcases h with rfl | h
        · exact absurd hd List.not_mem_nil
        · exact List.mem_cons_of_mem c (ih piece h hd)
      · rcases exists_splitOn_cons x c rest hc with ⟨first, others, hrest, hcons⟩
        rw [hrest] at ih
        rw [hcons, List.mem_cons] at h
        rcases h with rfl | h
        · rcases List.mem_cons.mp hd with rfl | hd
          · exact List.mem_cons_self
          · exact List.mem_cons_of_mem c (ih first List.mem_cons_self hd)
        · exact List.mem_cons_of_mem c (ih piece (List.mem_cons_of_mem first h) hd)

/-- All pieces but the last one are there to stay. -/
theorem exists_splitOn_append (cs : List α) : ∃ front last, cs.splitOn x = front ++ [last] ∧
    ∀ more, x ∉ more → (cs ++ more).splitOn x = front ++ [last ++ more] := by
  induction cs with
  | nil => exact ⟨[], [], rfl, fun more hmore => List.splitOn_eq_singleton hmore⟩
  | cons c rest ih =>
      rcases ih with ⟨front, last, hsplit, happend⟩
      by_cases hc : c = x
      · refine ⟨[] :: front, last, ?_, fun more hmore => ?_⟩
        · rw [hc, splitOn_cons_self, hsplit, List.cons_append]
        · rw [hc, List.cons_append, splitOn_cons_self, happend more hmore, List.cons_append]
      · -- The character goes to the first piece, which may be the last one as well.
        cases front with
        | nil =>
            exact ⟨[], c :: last, splitOn_cons_of_ne x c hc rest last [] hsplit,
              fun more hmore => splitOn_cons_of_ne x c hc _ _ [] (happend more hmore)⟩
        | cons first others =>
            exact ⟨(c :: first) :: others, last, splitOn_cons_of_ne x c hc rest first _ hsplit,
              fun more hmore => splitOn_cons_of_ne x c hc _ first _ (happend more hmore)⟩

/-- Where the first of several pieces is empty, the text starts with a separator. -/
theorem exists_eq_cons_of_splitOn (cs : List α) (pieces : List (List α)) (hpieces : pieces ≠ [])
    (h : cs.splitOn x = [] :: pieces) : ∃ rest, cs = x :: rest := by
  cases cs with
  | nil =>
      rw [List.splitOn_nil, List.cons.injEq] at h
      exact absurd h.2.symm hpieces
  | cons c rest =>
      by_cases hc : c = x
      · exact ⟨rest, by rw [hc]⟩
      · rcases exists_splitOn_cons x c rest hc with ⟨first, others, _, hcons⟩
        rw [hcons, List.cons.injEq] at h
        exact absurd h.1 (List.cons_ne_nil c first)

end

end Chomsky
