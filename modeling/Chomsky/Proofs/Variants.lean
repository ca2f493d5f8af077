import Chomsky.Proofs.Epsilon

/-!
# The Order of the Variants

What the removal of empty productions returns, alternative by alternative.

Each nullable occurrence of a body is kept or dropped, and these decisions are
independent. A choice is one decision for each occurrence, in order, and every choice
makes one variant of the body. So the variants are counted by the choices, and they
come in the order of the choices: keeping comes before dropping, and the first
occurrence on which two choices differ decides. What is no nullable variable does not
take part. A marker is in none of the variants, and all other symbols are in each.

The choices can be listed in that order by halves, those that keep the first
occurrence in front of those that drop it. This is also how the variants of a body are
defined, by its first symbol. A loop that reads the body from left to right gets the
same list in another way: it goes on with every variant begun so far, and where the
symbol may be dropped it leaves the variant as it was right behind the longer one. The
list doubles with each occurrence, and since the later occurrences move less than the
earlier ones, the order is that of the choices again.

No two choices are the same, but two of them can make the same variant, and two bodies
can share one. Only the first of equal variants is kept. Among the variants of one body
the zero-length one occurs at most once, and only for a body that vanishes altogether,
so that it costs such a body exactly one variant.

## Main definitions

* `Choice`, `Choice.Before`: A decision for each occurrence, and the order of choices.
* `choices`: All choices in order.
* `Body.chosen`: The variant that a choice makes.
* `Body.contribution`: The variants of a body other than the zero-length one.
* `Body.double`: One round of the loop.

## Theorems

* `mem_choices`, `pairwise_choices`, `length_choices`: All choices are there, in order.
* `variants_eq_map_choices`: The variants are made by the choices.
* `foldl_double`: The loop makes the same variants.
* `length_contribution`: How many variants a body contributes.
* `eliminateEpsilon_enumerates`: The outcome of the stage.
-/

namespace Chomsky

/-- A decision for each nullable occurrence of a body, in order: whether it is kept. -/
abbrev Choice := List Bool

/-- A choice comes before another one if it keeps the first occurrence on which the two
    differ. -/
def Choice.Before : Choice → Choice → Prop := List.Lex fun a b => a = true ∧ b = false

/-- All choices for a number of occurrences. -/
def choices : (occurrences : Nat) → List Choice
  | 0 => [[]]
  | k + 1 => (choices k).map (true :: ·) ++ (choices k).map (false :: ·)

theorem mem_choices (k : Nat) (choice : Choice) : choice ∈ choices k ↔ choice.length = k := by
  induction k generalizing choice with
  | zero => simp [choices]
  | succ k ih =>
      simp only [choices, List.mem_append, List.mem_map, ih]
      constructor
      · rintro (⟨others, rfl, rfl⟩ | ⟨others, rfl, rfl⟩) <;> rfl
      · intro h
        cases choice with
        | nil => exact absurd h (by simp)
        | cons keep others =>
            have hothers : others.length = k := Nat.succ.inj h
            cases keep with
            | true => exact Or.inl ⟨others, hothers, rfl⟩
            | false => exact Or.inr ⟨others, hothers, rfl⟩

theorem pairwise_choices (k : Nat) : (choices k).Pairwise Choice.Before := by
  induction k with
  | zero => exact List.pairwise_singleton _ _
  | succ k ih =>
      -- The order within each half is that of the other occurrences.
      have hhalf : ∀ keep : Bool, ((choices k).map (keep :: ·)).Pairwise Choice.Before := fun keep =>
        List.pairwise_map.mpr (ih.imp fun h => List.Lex.cons h)
      refine List.pairwise_append.mpr ⟨hhalf true, hhalf false, ?_⟩
      intro first hfirst second hsecond
      rcases List.mem_map.mp hfirst with ⟨_, _, rfl⟩
      rcases List.mem_map.mp hsecond with ⟨_, _, rfl⟩
      exact List.Lex.rel ⟨rfl, rfl⟩

theorem length_choices (k : Nat) : (choices k).length = 2 ^ k := by
  induction k with
  | zero => rfl
  | succ k ih =>
      simp only [choices, List.length_append, List.length_map, ih]
      omega

namespace Body

/-- The variant of a body that a choice makes. The choice decides about the nullable
    occurrences alone: markers are dropped, and all other symbols are kept. -/
def chosen (nullable : List Variable) : Body → Choice → Body
  | [], _ => []
  | s :: rest, choice =>
      if s.isEpsilon then chosen nullable rest choice
      else if s.isNullable nullable then
        if choice.headD true then s :: chosen nullable rest choice.tail
        else chosen nullable rest choice.tail
      else s :: chosen nullable rest choice

/-- The variants of a body other than the zero-length one, in the order of the choices
    that make them. -/
def contribution (nullable : List Variable) (body : Body) : List Body :=
  ((choices (body.nullableCount nullable)).map (body.chosen nullable)).filter (!·.isEmpty)

/-- One round of the loop: every variant begun so far goes on with the symbol, and right
    behind it comes the variant without the symbol, where that may be dropped. -/
def double (nullable : List Variable) (begun : List Body) (s : Symbol) : List Body :=
  if s.isEpsilon then begun
  else begun.flatMap fun variant =>
    if s.isNullable nullable then [variant ++ [s], variant] else [variant ++ [s]]

section

variable (nullable : List Variable)

/-- The variants of a body are made by the choices, one by each of them. -/
theorem variants_eq_map_choices (body : Body) :
    body.variants nullable = (choices (body.nullableCount nullable)).map (body.chosen nullable) := by
  induction body with
  | nil => rfl
  | cons s rest ih =>
      cases he : s.isEpsilon with
      | true =>
          -- A marker is no nullable variable, and so there is nothing to be chosen.
          rw [variants_of_isEpsilon nullable s rest he, ih,
            nullableCount_of_isEpsilon nullable s rest he]
          refine List.map_congr_left fun choice _ => ?_
          rw [chosen, if_pos he]
      | false =>
          cases hn : s.isNullable nullable with
          | true =>
              rw [variants_of_isNullable nullable s rest he hn, ih,
                nullableCount_of_isNullable nullable s rest hn, choices, List.map_append,
                List.map_map, List.map_map, List.map_map]
              -- The two halves of the choices keep the occurrence and drop it.
              refine congrArg₂ (· ++ ·) ?_ ?_
              · refine List.map_congr_left fun choice _ => ?_
                simp [chosen, he, hn]
              · refine List.map_congr_left fun choice _ => ?_
                simp [chosen, he, hn]
          | false =>
              rw [variants_of_not_isNullable nullable s rest he hn, ih,
                nullableCount_of_not_isNullable nullable s rest hn, List.map_map]
              refine List.map_congr_left fun choice _ => ?_
              simp [chosen, he, hn]

/-- From the variants begun so far the loop goes on with the variants of what is left of
    the body. -/
theorem foldl_double (body : Body) (begun : List Body) :
    body.foldl (double nullable) begun =
      begun.flatMap fun variant => (body.variants nullable).map (variant ++ ·) := by
  induction body generalizing begun with
  | nil => simp [variants]
  | cons s rest ih =>
      rw [List.foldl_cons, ih, double]
      cases he : s.isEpsilon with
      | true => rw [if_pos rfl, variants_of_isEpsilon nullable s rest he]
      | false =>
          rw [if_neg Bool.false_ne_true, List.flatMap_assoc]
          refine List.flatMap_congr fun variant _ => ?_
          cases hn : s.isNullable nullable with
          | true => simp [variants_of_isNullable nullable s rest he hn]
          | false => simp [variants_of_not_isNullable nullable s rest he hn]

/-- The zero-length variant comes once, and only from a body all of which can be
    dropped. -/
theorem count_nil_variants (body : Body) :
    (body.variants nullable).count [] = if ∀ s ∈ body, s.vanishes nullable = true then 1 else 0 := by
  induction body with
  | nil => rfl
  | cons s rest ih =>
      have hkept : ((variants nullable rest).map (s :: ·)).count [] = 0 :=
        List.count_eq_zero.mpr (by simp)
      cases he : s.isEpsilon with
      | true =>
          rw [variants_of_isEpsilon nullable s rest he, ih]
          simp [Symbol.vanishes, he]
      | false =>
          cases hn : s.isNullable nullable with
          | true =>
              rw [variants_of_isNullable nullable s rest he hn, List.count_append, hkept, ih]
              simp [Symbol.vanishes, hn]
          | false =>
              rw [variants_of_not_isNullable nullable s rest he hn, hkept]
              simp [Symbol.vanishes, he, hn]

/-- A body contributes two variants for each decision, and one less if all of it can be
    dropped. -/
theorem length_contribution (body : Body) :
    (body.contribution nullable).length =
      2 ^ body.nullableCount nullable -
        if ∀ s ∈ body, s.vanishes nullable = true then 1 else 0 := by
  have hlength : (body.variants nullable).length = 2 ^ body.nullableCount nullable := by
    rw [variants_eq_map_choices, List.length_map, length_choices]
  -- The variants are those of zero length and the others.
  have hsplit := List.length_eq_countP_add_countP (fun b : Body => !b.isEmpty)
    (l := body.variants nullable)
  have hnil : (body.variants nullable).countP (fun b => decide ¬ (!b.isEmpty) = true) =
      (body.variants nullable).count [] := by
    refine List.countP_congr fun b _ => ?_
    simp
  rw [contribution, ← variants_eq_map_choices, ← List.countP_eq_length_filter,
    ← count_nil_variants, ← hlength]
  omega

end

end Body

namespace Grammar

theorem alternatives_withoutEpsilon_eq (g : Grammar) (v : Variable) :
    g.withoutEpsilon.alternatives v = (((g.alternatives v).filter (!·.isEpsilon)).flatMap
      (Body.contribution g.nullable)).eraseDups := by
  rw [alternatives_withoutEpsilon, expand]
  refine congrArg List.eraseDups (List.flatMap_congr fun body _ => ?_)
  rw [Body.contribution, ← Body.variants_eq_map_choices]

/-- When the removal of empty productions succeeds, the variables are the same in the same
    order. The alternatives of each are what its bodies other than `[ε]` contribute, of
    equal ones the first, and `[ε]` is behind them where the start symbol retains it.
    Choices are listed without a gap and in their order, the loop makes the variants in
    that order, and a body contributes two variants for each occurrence to be decided
    about, or one less if all its symbols can be dropped. -/
theorem eliminateEpsilon_enumerates (g r : Grammar) (start : Variable) (keep : Bool) (limit : Nat)
    (h : g.eliminateEpsilon start keep limit = .ok r) :
    r.defined = g.defined ∧
    (∀ v, r.alternatives v =
      (((g.alternatives v).filter (!·.isEpsilon)).flatMap
        (Body.contribution g.nullable)).eraseDups ++
      if v = start ∧ keep = true ∧ start ∈ g.nullable ∧ r.occursInBody start = false
        then [[.epsilon]] else []) ∧
    (∀ k, (choices k).Pairwise Choice.Before ∧ ∀ choice, choice ∈ choices k ↔ choice.length = k) ∧
    (∀ body : Body, body.foldl (Body.double g.nullable) [[]] =
      (choices (body.nullableCount g.nullable)).map (body.chosen g.nullable)) ∧
    ∀ body : Body, (body.contribution g.nullable).length = 2 ^ body.nullableCount g.nullable -
      if ∀ s ∈ body, s.isEpsilon = true ∨ s.isNullable g.nullable = true then 1 else 0 := by
  refine ⟨g.defined_of_eliminateEpsilon r start keep limit h, fun v => ?_, fun k => ?_,
    fun body => ?_, fun body => ?_⟩
  · rw [g.alternatives_of_eliminateEpsilon r start keep limit h v, g.alternatives_withoutEpsilon_eq]
    have hretained : g.retainsEpsilon start keep = true ↔
        keep = true ∧ start ∈ g.nullable ∧ r.occursInBody start = false := by
      rw [g.retainsEpsilon_iff, g.occursInBody_of_eliminateEpsilon r start keep limit h,
        mem_nullable_iff]
    exact congrArg (_ ++ ·) (if_congr (and_congr_right fun _ => hretained) rfl rfl)
  · exact ⟨pairwise_choices k, mem_choices k⟩
  · rw [Body.foldl_double, ← Body.variants_eq_map_choices]
    simp
  · rw [Body.length_contribution]
    simp only [Symbol.vanishes, Bool.or_eq_true]

/-- Two bodies of `S` share variants, and the last one is a repeated variable. -/
def overlapping : Grammar := ofRules [
  (⟨"S"⟩, [[.nonterminal ⟨"A"⟩, .epsilon, .nonterminal ⟨"B"⟩], [.epsilon],
    [.nonterminal ⟨"B"⟩, .nonterminal ⟨"B"⟩]]),
  (⟨"A"⟩, [[.terminal ⟨"a"⟩, .nonterminal ⟨"B"⟩], [.epsilon]]),
  (⟨"B"⟩, [[.nonterminal ⟨"A"⟩, .terminal ⟨"b"⟩], [.epsilon, .epsilon]])]

/-- `overlapping` with its variants in order. -/
def spelledOut : Grammar := ofRules [
  (⟨"S"⟩, [[.nonterminal ⟨"A"⟩, .nonterminal ⟨"B"⟩], [.nonterminal ⟨"A"⟩], [.nonterminal ⟨"B"⟩],
    [.nonterminal ⟨"B"⟩, .nonterminal ⟨"B"⟩], [.epsilon]]),
  (⟨"A"⟩, [[.terminal ⟨"a"⟩, .nonterminal ⟨"B"⟩], [.terminal ⟨"a"⟩]]),
  (⟨"B"⟩, [[.nonterminal ⟨"A"⟩, .terminal ⟨"b"⟩], [.terminal ⟨"b"⟩]])]

theorem spelledOut_enumerates :
    overlapping.eliminateEpsilon ⟨"S"⟩ true 2 = .ok spelledOut ∧
      spelledOut.alternatives ⟨"S"⟩ =
        (((overlapping.alternatives ⟨"S"⟩).filter (!·.isEpsilon)).flatMap
          (Body.contribution overlapping.nullable)).eraseDups ++ [[.epsilon]] ∧
      ((overlapping.alternatives ⟨"S"⟩).map fun body =>
        (body.contribution overlapping.nullable).length) = [3, 0, 3] := by
  have hstage : overlapping.eliminateEpsilon ⟨"S"⟩ true 2 = .ok spelledOut := by rfl
  have h := eliminateEpsilon_enumerates overlapping spelledOut ⟨"S"⟩ true 2 hstage
  refine ⟨hstage, h.2.1 ⟨"S"⟩, ?_⟩
  rw [List.map_congr_left fun body _ => h.2.2.2.2 body]
  decide

end Grammar

end Chomsky
