/-!
# Blanks

The characters with the Unicode property `White_Space`, and trimming them off
both ends of a text. The property leaves out the zero-width space and the byte
order mark, which are ordinary characters here.

## Main definitions

* `isBlank`: The property.
* `trim`: A text without blanks at either end.
* `Trimmed`: A text has no blanks at either end.

## Theorems

* `trim_cons_of_isBlank`, `trim_concat_of_isBlank`: A blank at an end does not count.
* `trim_eq_self_iff`: The trimmed texts are those that trimming leaves alone.
* `trimmed_trim`: Trimming leaves a trimmed text.
* `trim_isInfix`: What trimming leaves is a part of the text.
-/

namespace Chomsky

/-- The code points with the property `White_Space`, as closed ranges. -/
def blankRanges : List (Nat × Nat) :=
  [(0x09, 0x0D), (0x20, 0x20), (0x85, 0x85), (0xA0, 0xA0), (0x1680, 0x1680),
    (0x2000, 0x200A), (0x2028, 0x2029), (0x202F, 0x202F), (0x205F, 0x205F), (0x3000, 0x3000)]

/-- Whether a character has the property `White_Space`. -/
def isBlank (c : Char) : Bool :=
  blankRanges.any fun r => decide (r.1 ≤ c.toNat ∧ c.toNat ≤ r.2)

/-- A text without the blanks at either end. -/
def trim (cs : List Char) : List Char :=
  ((cs.dropWhile isBlank).reverse.dropWhile isBlank).reverse

/-- Neither the first character of a text nor the last one is a blank. -/
def Trimmed (cs : List Char) : Prop :=
  (∀ c ∈ cs.head?, isBlank c = false) ∧ ∀ c ∈ cs.getLast?, isBlank c = false

theorem trim_cons_of_isBlank (c : Char) (cs : List Char) (h : isBlank c = true) :
    trim (c :: cs) = trim cs := by
  rw [trim, List.dropWhile_cons_of_pos h, trim]

theorem trim_concat_of_isBlank (cs : List Char) (c : Char) (h : isBlank c = true) :
    trim (cs ++ [c]) = trim cs := by
  rw [trim, List.dropWhile_append, trim]
  split
  · -- Nothing but blanks came before, so nothing is left on either side.
    next hnone =>
      rw [List.isEmpty_iff.mp hnone, List.dropWhile_cons_of_pos h]
      rfl
  · rw [List.reverse_append, List.reverse_singleton, List.singleton_append,
      List.dropWhile_cons_of_pos h]

theorem dropWhile_isBlank_eq_self (cs : List Char) (h : ∀ c ∈ cs.head?, isBlank c = false) :
    cs.dropWhile isBlank = cs := by
  cases cs with
  | nil => rfl
  | cons c rest =>
      refine List.dropWhile_cons_of_neg ?_
      rw [h c rfl]
      exact Bool.false_ne_true

theorem head?_dropWhile_isBlank (cs : List Char) :
    ∀ c ∈ (cs.dropWhile isBlank).head?, isBlank c = false := by
  intro c hc
  have h := List.head?_dropWhile_not isBlank cs
  rw [Option.mem_def.mp hc] at h
  exact h

theorem trim_prefix_dropWhile (cs : List Char) : trim cs <+: cs.dropWhile isBlank := by
  rw [← List.reverse_suffix, trim, List.reverse_reverse]
  exact List.dropWhile_suffix isBlank

theorem trimmed_trim (cs : List Char) : Trimmed (trim cs) := by
  refine ⟨fun c hc => ?_, fun c hc => ?_⟩
  · -- What is dropped at the end leaves the first character where it is.
    rcases trim_prefix_dropWhile cs with ⟨tail, htail⟩
    refine head?_dropWhile_isBlank cs c ?_
    rw [← htail, List.head?_append, Option.mem_def.mp hc]
    rfl
  · rw [trim, List.getLast?_reverse] at hc
    exact head?_dropWhile_isBlank _ c hc

theorem trim_eq_self_iff (cs : List Char) : trim cs = cs ↔ Trimmed cs := by
  constructor
  · exact fun h => h ▸ trimmed_trim cs
  · intro h
    have hlast : ∀ c ∈ cs.reverse.head?, isBlank c = false := by
      rw [List.head?_reverse]
      exact h.2
    rw [trim, dropWhile_isBlank_eq_self cs h.1, dropWhile_isBlank_eq_self cs.reverse hlast,
      List.reverse_reverse]

instance (cs : List Char) : Decidable (Trimmed cs) := decidable_of_iff _ (trim_eq_self_iff cs)

@[simp] theorem trim_trim (cs : List Char) : trim (trim cs) = trim cs :=
  (trim_eq_self_iff (trim cs)).mpr (trimmed_trim cs)

theorem trim_isInfix (cs : List Char) : trim cs <:+: cs :=
  (trim_prefix_dropWhile cs).isInfix.trans (List.dropWhile_suffix isBlank).isInfix

end Chomsky
