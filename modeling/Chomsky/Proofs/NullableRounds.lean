import Chomsky.FreshName
import Chomsky.Proofs.Nullable
import Mathlib.Logic.Function.Iterate

/-!
# Rounds of the Search for Nullable Variables

How long the search for nullable variables takes.

The search is a loop that nothing bounds from outside. A round scans the rules and
compares the number of known variables before and after. If it is the same the search
is over, and that round is its last; otherwise there is another round, with what is
known by then. The relation `Saturation` says just this, and counts the rounds.

The number of variables that are not known yet measures what is left to do. No variable
is known twice, and all that are known are in the grammar, so a round that is not the
last finds a variable of the grammar that was missing before it. There is a round for
each of these at most, and the one that finds nothing.

The order of the rules can make it as slow as that. If every variable waits for one that
is scanned later, a round finds a single one, which is scanned last of all that are
missing. A row of such variables needs all the rounds there can be.

## Main definitions

* `Grammar.Saturation`: The search from some known variables on, with its rounds.
* `Grammar.knownAfter`: What is known after a number of rounds.
* `Grammar.waiting`: A row of variables, each waiting for one that is scanned later.

## Theorems

* `saturation_unique`: The search has one course.
* `exists_new`: A round that is not the last finds a missing variable.
* `rounds_add_length_le`: The rounds are paid for by what is found.
* `exists_saturation`: The search ends, with the answer that is computed.
* `saturation_waiting`: A grammar of any size can need all the rounds.
* `nullable_rounds`: The rounds of the search.
-/

namespace Chomsky

namespace Grammar

/-- The search from some known variables on, with the number of its rounds and what is
    known at its end. -/
inductive Saturation (g : Grammar) : List Variable → Nat → List Variable → Prop
  | last (known : List Variable) (hsame : (g.nullableRound known).length = known.length) :
      Saturation g known 1 (g.nullableRound known)
  | again (known : List Variable) (n : Nat) (result : List Variable)
      (hmore : (g.nullableRound known).length ≠ known.length)
      (hrest : Saturation g (g.nullableRound known) n result) :
      Saturation g known (n + 1) result

/-- What is known after a number of rounds, the seed being known before the first. -/
def knownAfter (g : Grammar) (rounds : Nat) : List Variable :=
  g.nullableRound^[rounds] g.nullableSeed

/-- The search has one course: how long it takes and how it ends are determined by what
    is known at its start. -/
theorem saturation_unique (g : Grammar) (known result other : List Variable) (n m : Nat)
    (h : Saturation g known n result) (h' : Saturation g known m other) :
    n = m ∧ result = other := by
  induction h generalizing m other with
  | last known hsame =>
      cases h' with
      | last => exact ⟨rfl, rfl⟩
      | again _ _ _ hmore => exact absurd hsame hmore
  | again known n result hmore _ ih =>
      cases h' with
      | last _ hsame => exact absurd hsame hmore
      | again _ m _ _ hrest =>
          rcases ih other m hrest with ⟨hn, hresult⟩
          exact ⟨congrArg (· + 1) hn, hresult⟩

theorem iterate_of_saturation (g : Grammar) (known result : List Variable) (n : Nat)
    (h : Saturation g known n result) : g.nullableRound^[n] known = result := by
  induction h with
  | last known _ => rfl
  | again known n result _ _ ih => rw [Function.iterate_succ_apply, ih]

/-- A round that is not the last finds a variable of the grammar that was missing. -/
theorem exists_new (g : Grammar) (known : List Variable) (H : g.NullableSoFar known)
    (hmore : (g.nullableRound known).length ≠ known.length) :
    ∃ v ∈ g.defined, v ∉ known ∧ v ∈ g.nullableRound known := by
  have hnext := g.nullableSoFar_round known H
  by_contra hnone
  -- Without a new variable the longer list would have one twice.
  have hsub : g.nullableRound known ⊆ known := by
    intro v hv
    by_contra hnew
    exact hnone ⟨v, hnext.subset hv, hnew, hv⟩
  have hle := hnext.nodup.length_le_of_subset hsub
  have hlt := g.length_lt_of_length_ne known hmore
  omega

/-- Every round but the last finds a variable of the grammar that was missing. -/
theorem exists_new_of_saturation (g : Grammar) (known result : List Variable) (n : Nat)
    (h : Saturation g known n result) (H : g.NullableSoFar known) (i : Nat) (hi : i + 1 < n) :
    ∃ v ∈ g.defined, v ∉ g.nullableRound^[i] known ∧ v ∈ g.nullableRound^[i + 1] known := by
  induction h generalizing i with
  | last known _ => omega
  | again known n result hmore _ ih =>
      cases i with
      | zero => exact g.exists_new known H hmore
      | succ i => exact ih (g.nullableSoFar_round known H) i (by omega)

/-- The rounds are paid for by what is found, except for the last. -/
theorem rounds_add_length_le (g : Grammar) (known result : List Variable) (n : Nat)
    (h : Saturation g known n result) : n + known.length ≤ result.length + 1 := by
  induction h with
  | last known hsame => omega
  | again known n result hmore _ ih =>
      have hlt := g.length_lt_of_length_ne known hmore
      omega

/-- With enough rounds allowed, the search that is cut off after them comes to its end,
    and so the search that is not cut off ends in the same way. -/
theorem exists_saturation (g : Grammar) (rounds : Nat) (known : List Variable)
    (H : g.NullableSoFar known) (hlen : g.size < rounds + known.length) :
    ∃ n, Saturation g known n (g.saturate rounds known) := by
  induction rounds generalizing known with
  | zero =>
      -- The list would be longer than the grammar.
      have hle := g.length_le_size known H
      omega
  | succ k ih =>
      simp only [saturate]
      by_cases he : (g.nullableRound known).length = known.length
      · rw [if_pos he]
        have hlast := Saturation.last known he
        rw [g.nullableRound_eq_of_length known he] at hlast
        exact ⟨1, hlast⟩
      · rw [if_neg he]
        -- One round less is enough for the rest, which begins with a longer list.
        have hlt := g.length_lt_of_length_ne known he
        rcases ih _ (g.nullableSoFar_round known H) (by omega) with ⟨n, hn⟩
        exact ⟨n + 1, Saturation.again known n _ he hn⟩

theorem exists_saturation_nullable (g : Grammar) :
    ∃ n, Saturation g g.nullableSeed n g.nullable :=
  g.exists_saturation (g.size + 1) g.nullableSeed g.nullableSoFar_seed (by omega)

/-- The variable with a number in the row. -/
def waitingVariable (i : Nat) : Variable := freshVariable 'V' i

/-- What a variable of the row waits for. The first has two markers, a body that vanishes
    without being in the seed. -/
def waitingBody : Nat → Body
  | 0 => [.epsilon, .epsilon]
  | i + 1 => [.nonterminal (waitingVariable i)]

/-- The rules of the row, the first variable in the last place. -/
def waitingRules : Nat → List Rule
  | 0 => []
  | n + 1 => (waitingVariable n, [waitingBody n]) :: waitingRules n

/-- The first variables of the row, in the order in which they are found. -/
def foundVariables (k : Nat) : List Variable := (List.range k).map waitingVariable

theorem waitingVariable_injective : Function.Injective waitingVariable :=
  fun i j => freshVariable_injective 'V' i j

@[simp] theorem mem_foundVariables (i k : Nat) : waitingVariable i ∈ foundVariables k ↔ i < k := by
  rw [foundVariables, List.mem_map_of_injective waitingVariable_injective, List.mem_range]

theorem foundVariables_succ (k : Nat) :
    foundVariables (k + 1) = foundVariables k ++ [waitingVariable k] := by
  rw [foundVariables, List.range_succ, List.map_append]
  rfl

theorem map_fst_waitingRules (n : Nat) :
    (waitingRules n).map Prod.fst = (foundVariables n).reverse := by
  induction n with
  | zero => rfl
  | succ n ih =>
      rw [waitingRules, List.map_cons, ih, foundVariables_succ, List.reverse_append]
      rfl

/-- A row of variables, each but the first waiting for one that is scanned later. -/
def waiting (n : Nat) : Grammar where
  rules := waitingRules n
  distinct := by
    rw [map_fst_waitingRules, List.nodup_reverse]
    exact List.nodup_range.map waitingVariable_injective

theorem size_waiting (n : Nat) : (waiting n).size = n := by
  have hlen := congrArg List.length (map_fst_waitingRules n)
  rw [List.length_map, List.length_reverse, foundVariables, List.length_map,
    List.length_range] at hlen
  exact hlen

theorem isEpsilon_waitingBody (i : Nat) : (waitingBody i).isEpsilon = false := by
  cases i <;> rfl

theorem nullableSeed_waiting (n : Nat) : (waiting n).nullableSeed = [] := by
  have hnone : (waitingRules n).filter (fun r => r.2.any Body.isEpsilon) = [] := by
    induction n with
    | zero => rfl
    | succ n ih =>
        simp only [waitingRules, List.filter_cons, List.any_cons, List.any_nil,
          isEpsilon_waitingBody, Bool.or_false, Bool.false_eq_true, if_false, ih]
  rw [nullableSeed, waiting, hnone, List.map_nil]

theorem vanishes_waitingBody (i k : Nat) :
    (waitingBody i).vanishes (foundVariables k) = true ↔ i ≤ k := by
  cases i with
  | zero => exact iff_of_true rfl (Nat.zero_le k)
  | succ i =>
      simp [Body.vanishes_iff, waitingBody]

/-- A scan of the row finds the first variable that is missing. Those before it are known
    already, and those behind it were scanned while it was missing. -/
theorem scan_waitingRules (n k : Nat) :
    (waitingRules n).foldl noteNullable (foundVariables k) =
      foundVariables (if k < n then k + 1 else k) := by
  induction n generalizing k with
  | zero => rfl
  | succ n ih =>
      have hstep : noteNullable (foundVariables k) (waitingVariable n, [waitingBody n]) =
          foundVariables (if k = n then k + 1 else k) := by
        simp only [noteNullable, List.contains_iff_mem, mem_foundVariables, List.any_cons,
          List.any_nil, Bool.or_false, vanishes_waitingBody]
        rcases Nat.lt_trichotomy n k with hlt | rfl | hgt
        · rw [if_pos hlt, if_neg (by omega)]
        · rw [if_neg (Nat.lt_irrefl n), if_pos (Nat.le_refl n), if_pos rfl, foundVariables_succ]
        · rw [if_neg (by omega), if_neg (by omega), if_neg (by omega)]
      rw [waitingRules, List.foldl_cons, hstep, ih]
      congr 1
      split_ifs <;> omega

theorem nullableRound_waiting (n k : Nat) :
    (waiting n).nullableRound (foundVariables k) =
      foundVariables (if k < n then k + 1 else k) :=
  scan_waitingRules n k

/-- When some variables of the row are missing, a round is needed for each of them. -/
theorem saturation_waiting_from (k missing : Nat) :
    Saturation (waiting (k + missing)) (foundVariables k) (missing + 1)
      (foundVariables (k + missing)) := by
  induction missing generalizing k with
  | zero =>
      -- Nothing is missing, but it takes a round to see that.
      have hround := nullableRound_waiting k k
      rw [if_neg (Nat.lt_irrefl k)] at hround
      have hlast := Saturation.last (foundVariables k) (congrArg List.length hround)
      rwa [hround] at hlast
  | succ missing ih =>
      -- This round finds one variable and leaves the others to the rounds behind it.
      have hround := nullableRound_waiting (k + (missing + 1)) k
      rw [if_pos (by omega)] at hround
      have hrest := ih (k + 1)
      rw [Nat.add_right_comm, Nat.add_assoc, ← hround] at hrest
      refine Saturation.again _ _ _ ?_ hrest
      rw [hround, foundVariables_succ, List.length_append, List.length_singleton]
      exact Nat.succ_ne_self _

/-- A grammar of any size can need all the rounds there can be. -/
theorem saturation_waiting (n : Nat) :
    (waiting n).size = n ∧
      Saturation (waiting n) (waiting n).nullableSeed (n + 1) (waiting n).nullable := by
  have hsat := saturation_waiting_from 0 n
  rw [Nat.zero_add, show foundVariables 0 = (waiting n).nullableSeed from
    (nullableSeed_waiting n).symm] at hsat
  -- What the row is found to end in is the answer, as the search has one course.
  rcases (waiting n).exists_saturation_nullable with ⟨m, hm⟩
  rcases saturation_unique _ _ _ _ _ _ hm hsat with ⟨rfl, _⟩
  exact ⟨size_waiting n, hm⟩

/-- The search for nullable variables ends on every grammar, in one way, after one round
    more than there are variables at most. Every round but the last finds a variable of
    the grammar that was not known before it, and one more round would find nothing. -/
theorem nullable_rounds (g : Grammar) :
    ∃ n, Saturation g g.nullableSeed n g.nullable ∧
      (∀ m result, Saturation g g.nullableSeed m result → m = n ∧ result = g.nullable) ∧
      n ≤ g.size + 1 ∧
      (∀ i, i + 1 < n → ∃ v ∈ g.defined, v ∉ g.knownAfter i ∧ v ∈ g.knownAfter (i + 1)) ∧
      g.knownAfter n = g.nullable ∧ g.knownAfter (n + 1) = g.nullable := by
  rcases g.exists_saturation_nullable with ⟨n, hn⟩
  have hend : g.knownAfter n = g.nullable := g.iterate_of_saturation _ _ n hn
  refine ⟨n, hn, fun m result hm => ?_, ?_, ?_, hend, ?_⟩
  · exact g.saturation_unique _ result g.nullable m n hm hn
  · have hpaid := g.rounds_add_length_le _ _ n hn
    have hle := g.length_le_size g.nullable g.nullableSoFar_nullable
    omega
  · exact g.exists_new_of_saturation _ _ n hn g.nullableSoFar_seed
  · rw [knownAfter, Function.iterate_succ_apply']
    change g.nullableRound (g.knownAfter n) = g.nullable
    rw [hend, g.nullableRound_nullable]

/-- In a row of three the third round finds a variable, and only the fourth is the last. -/
theorem nullable_rounds_waiting :
    Saturation (waiting 3) (waiting 3).nullableSeed 4 (waiting 3).nullable ∧
      ∃ v ∈ (waiting 3).defined, v ∉ (waiting 3).knownAfter 2 ∧ v ∈ (waiting 3).knownAfter 3 := by
  have hrow := (saturation_waiting 3).2
  rcases nullable_rounds (waiting 3) with ⟨n, _, hone, _, hnew, _⟩
  rcases hone 4 _ hrow with ⟨rfl, _⟩
  exact ⟨hrow, hnew 2 (by decide)⟩

end Grammar

end Chomsky
