import Chomsky.Proofs.Capture
import Mathlib.Data.Nat.Nth

/-!
# The Supply of Fresh Names

What the generator of fresh names returns, call after call.

A generator counts. A call makes a name of the letter and the counter, raises the
counter, and tries again if the name was taken; otherwise the name is returned and taken
from then on. Nothing bounds that loop from outside. It ends because different numbers
make different names: among one more number than there are names taken, one is free.

The names taken grow with every call, but only behind the counter. So from the counter
on a number is taken exactly if the grammar mentions its name, as it was in the
beginning. A call then returns the least number from the counter on that the grammar
leaves free, and a row of calls goes through all free numbers in their order.

That is the form in which the conversion draws its names: all at once, from the names of
the grammar alone.

## Main definitions

* `FreshNames`: A generator.
* `FreshNames.Next`: A call, with the rounds of its loop.
* `FreshNames.Draws`: A row of calls.
* `Grammar.FreeNumber`: The numbers whose names a grammar does not use.
* `FreshNames.Tracks`: From the counter on, what is taken is what a grammar mentions.

## Theorems

* `FreshNames.next_unique`: A call has one outcome.
* `FreshNames.next_nextFree`: A call finds what a search for the next number finds.
* `FreshNames.exists_next`: Every call ends.
* `FreshNames.tracks_of_next`: Calls keep track of the grammar.
* `FreshNames.nth_of_next`: A call returns the next free number.
* `FreshNames.nth_of_draws`: A row of calls returns the free numbers in a row.
* `FreshNames.draws_freeNumbers`: Names drawn at once are those of the calls.
* `FreshNames.supply`: The calls on a generator.
-/

namespace Chomsky

/-- A generator of fresh names: the letter they begin with, the number of the next name
    to try, and the names that are taken. -/
structure FreshNames where
  letter : Char
  counter : Nat
  taken : List String

namespace FreshNames

/-- The generator for a grammar. It counts from one, and the names of the grammar are
    taken. -/
def ofGrammar (g : Grammar) (letter : Char) : FreshNames where
  letter := letter
  counter := 1
  taken := g.mentioned.map Variable.name

/-- The variable to try. -/
def candidate (s : FreshNames) : Variable := freshVariable s.letter s.counter

/-- The generator after a name was passed over. -/
def advance (s : FreshNames) : FreshNames := { s with counter := s.counter + 1 }

/-- The generator after a name was given out. -/
def take (s : FreshNames) : FreshNames :=
  { s with counter := s.counter + 1, taken := s.candidate.name :: s.taken }

/-- A call on a generator goes through a number of rounds, returns a variable and leaves
    the generator in a new state. -/
inductive Next : FreshNames → Nat → Variable → FreshNames → Prop
  | found (s : FreshNames) (hfree : s.candidate.name ∉ s.taken) : Next s 1 s.candidate s.take
  | passed (s : FreshNames) (n : Nat) (v : Variable) (t : FreshNames)
      (htaken : s.candidate.name ∈ s.taken) (hrest : Next s.advance n v t) : Next s (n + 1) v t

/-- Calls in a row, with the variables they return. -/
inductive Draws : FreshNames → List Variable → FreshNames → Prop
  | nil (s : FreshNames) : Draws s [] s
  | cons (s : FreshNames) (n : Nat) (v : Variable) (t : FreshNames) (vs : List Variable)
      (u : FreshNames) (hnext : Next s n v t) (hrest : Draws t vs u) : Draws s (v :: vs) u

/-- A call has one outcome. -/
theorem next_unique (s t u : FreshNames) (n m : Nat) (v w : Variable) (h : Next s n v t)
    (h' : Next s m w u) : n = m ∧ v = w ∧ t = u := by
  induction h generalizing m w u with
  | found s hfree =>
      -- Whether a round ends the call depends on the state alone.
      cases h' with
      | found => exact ⟨rfl, rfl, rfl⟩
      | passed _ _ _ _ htaken => exact absurd htaken hfree
  | passed s n v t htaken _ ih =>
      cases h' with
      | found _ hfree => exact absurd htaken hfree
      | passed _ m _ _ _ hrest =>
          rcases ih u m w hrest with ⟨hn, hv, ht⟩
          exact ⟨congrArg (· + 1) hn, hv, ht⟩

theorem draws_unique (s t u : FreshNames) (vs ws : List Variable) (h : Draws s vs t)
    (h' : Draws s ws u) (hlen : vs.length = ws.length) : vs = ws ∧ t = u := by
  induction h generalizing ws u with
  | nil s =>
      cases h' with
      | nil => exact ⟨rfl, rfl⟩
      | cons => exact absurd hlen.symm (Nat.succ_ne_zero _)
  | cons s n v t vs u hnext _ ih =>
      cases h' with
      | nil => exact absurd hlen (Nat.succ_ne_zero _)
      | cons _ m w t' ws _ hnext' hrest' =>
          rcases next_unique s t t' n m v w hnext hnext' with ⟨_, rfl, rfl⟩
          rcases ih _ ws hrest' (Nat.succ.inj hlen) with ⟨rfl, rfl⟩
          exact ⟨rfl, rfl⟩

/-- A call passes over the names that are taken and ends at the first that is not. -/
theorem next_of_passed (s : FreshNames) (d : Nat)
    (htaken : ∀ i < d, (freshVariable s.letter (s.counter + i)).name ∈ s.taken)
    (hfree : (freshVariable s.letter (s.counter + d)).name ∉ s.taken) :
    ∃ t, Next s (d + 1) (freshVariable s.letter (s.counter + d)) t ∧
      t.counter = s.counter + d + 1 := by
  induction d generalizing s with
  | zero => exact ⟨s.take, Next.found s hfree, rfl⟩
  | succ d ih =>
      -- One round further, the names to pass are one fewer.
      have hshift : ∀ i, s.advance.counter + i = s.counter + (i + 1) := fun i => by
        rw [advance, Nat.add_assoc, Nat.add_comm 1]
      rcases ih s.advance
        (fun i hi => by rw [hshift]; exact htaken (i + 1) (Nat.succ_lt_succ hi))
        (by rw [hshift]; exact hfree) with ⟨t, ht, hcounter⟩
      rw [hshift] at ht hcounter
      exact ⟨t, Next.passed s _ _ t (htaken 0 (Nat.succ_pos d)) ht, hcounter⟩

/-- A call finds what a search finds that goes by other names taken, if from the counter
    on they are the same. -/
theorem next_nextFree (s : FreshNames) (taken : List String)
    (hsame : ∀ k, s.counter ≤ k →
      ((freshVariable s.letter k).name ∈ s.taken ↔ (freshVariable s.letter k).name ∈ taken)) :
    ∃ n t, Next s n (freshVariable s.letter (nextFree s.letter taken taken.length s.counter)) t ∧
      t.counter = nextFree s.letter taken taken.length s.counter + 1 ∧
      n ≤ taken.length + 1 := by
  have hle := nextFree_le s.letter taken taken.length s.counter
  rcases Nat.exists_eq_add_of_le (le_nextFree s.letter taken taken.length s.counter)
    with ⟨d, hd⟩
  -- The search passes over the same `d` names as the rounds of the call.
  have htaken : ∀ i < d, (freshVariable s.letter (s.counter + i)).name ∈ s.taken := fun i hi =>
    (hsame _ (Nat.le_add_right _ i)).mpr
      (mem_of_lt_nextFree s.letter taken taken.length s.counter _ (Nat.le_add_right _ i)
        (hd ▸ Nat.add_lt_add_left hi _))
  have hfree : (freshVariable s.letter (s.counter + d)).name ∉ s.taken :=
    mt (hsame _ (Nat.le_add_right _ d)).mp (hd ▸ nextFree_not_mem s.letter taken s.counter)
  rcases s.next_of_passed d htaken hfree with ⟨t, ht, hcounter⟩
  rw [hd] at hle ⊢
  exact ⟨d + 1, t, ht, hcounter, Nat.succ_le_succ (Nat.le_of_add_le_add_left hle)⟩

/-- Every call ends, with one round more than there are names taken at the latest. -/
theorem exists_next (s : FreshNames) : ∃ n v t, Next s n v t ∧ n ≤ s.taken.length + 1 := by
  rcases s.next_nextFree s.taken fun _ _ => Iff.rfl with ⟨n, t, ht, _, hn⟩
  exact ⟨n, _, t, ht, hn⟩

end FreshNames

/-- The numbers from one on whose variable is neither on a left-hand side of the grammar
    nor in a body. -/
def Grammar.FreeNumber (g : Grammar) (letter : Char) (k : Nat) : Prop :=
  1 ≤ k ∧ freshVariable letter k ∉ g.defined ∧ g.occursInBody (freshVariable letter k) = false

instance (g : Grammar) (letter : Char) : DecidablePred (g.FreeNumber letter) := fun _ =>
  inferInstanceAs (Decidable (_ ∧ _ ∧ _))

theorem Grammar.freeNumber_iff (g : Grammar) (letter : Char) (k : Nat) (hk : 1 ≤ k) :
    g.FreeNumber letter k ↔ freshVariable letter k ∉ g.mentioned := by
  rw [FreeNumber, and_iff_right hk, g.mem_mentioned_iff, not_or, Bool.not_eq_true]

theorem Grammar.count_freeNumber_one (g : Grammar) (letter : Char) :
    Nat.count (g.FreeNumber letter) 1 = 0 := by
  have hzero : ¬ g.FreeNumber letter 0 := fun h => Nat.not_succ_le_zero 0 h.1
  rw [Nat.count_succ, if_neg hzero, Nat.count_zero]

/-- There is no last free number. -/
theorem Grammar.infinite_freeNumber (g : Grammar) (letter : Char) :
    (Set.ofPred (g.FreeNumber letter)).Infinite := by
  -- Behind any number, a search finds a free one.
  refine Set.infinite_of_forall_exists_gt fun a => ?_
  have hle := le_nextFree letter (g.taken letter) (g.taken letter).length (a + 1)
  refine ⟨_, (g.freeNumber_iff letter _ ((Nat.le_add_left 1 a).trans hle)).mpr ?_, hle⟩
  rw [← mem_taken]
  exact nextFree_not_mem letter (g.taken letter) (a + 1)

namespace FreshNames

/-- From the counter on, what is taken is what the grammar mentions. -/
structure Tracks (g : Grammar) (letter : Char) (s : FreshNames) : Prop where
  sameLetter : s.letter = letter
  started : 1 ≤ s.counter
  sameTaken : ∀ k, s.counter ≤ k →
    ((freshVariable letter k).name ∈ s.taken ↔ freshVariable letter k ∈ g.mentioned)

variable {g : Grammar} {letter : Char} {s : FreshNames}

theorem tracks_ofGrammar (g : Grammar) (letter : Char) : Tracks g letter (ofGrammar g letter) := by
  refine ⟨rfl, Nat.le_refl 1, fun k _ => ?_⟩
  exact List.mem_map_of_injective fun v w h => by
    cases v
    cases w
    exact congrArg Variable.mk h

theorem Tracks.advance (H : Tracks g letter s) : Tracks g letter s.advance :=
  ⟨H.sameLetter, Nat.le_succ_of_le H.started, fun k hk => H.sameTaken k (Nat.le_of_succ_le hk)⟩

/-- The name that is given out lies behind the counter. -/
theorem Tracks.take (H : Tracks g letter s) : Tracks g letter s.take := by
  refine ⟨H.sameLetter, Nat.le_succ_of_le H.started, fun k hk => ?_⟩
  -- Numbers from the new counter on make other names than the one that was given out.
  have hne : (freshVariable letter k).name ≠ s.candidate.name := fun he => by
    have := freshVariable_injective letter k s.counter (by
      rw [candidate, H.sameLetter] at he
      exact congrArg Variable.mk he)
    exact absurd hk (this ▸ Nat.not_succ_le_self k)
  rw [FreshNames.take, List.mem_cons, or_iff_right hne]
  exact H.sameTaken k (Nat.le_of_succ_le hk)

/-- Calls keep track of the grammar. -/
theorem tracks_of_next (s t : FreshNames) (n : Nat) (v : Variable) (h : Next s n v t)
    (H : Tracks g letter s) : Tracks g letter t := by
  induction h with
  | found s _ => exact H.take
  | passed s n v t _ _ ih => exact ih H.advance

/-- The candidate is free for the generator if its number is free in the grammar. -/
theorem Tracks.candidate_mem_iff (H : Tracks g letter s) :
    s.candidate.name ∈ s.taken ↔ ¬ g.FreeNumber letter s.counter := by
  rw [g.freeNumber_iff letter s.counter H.started, not_not, candidate, H.sameLetter]
  exact H.sameTaken s.counter (Nat.le_refl _)

/-- A call returns the next free number, and passes no other. -/
theorem nth_of_next (s t : FreshNames) (n : Nat) (v : Variable) (h : Next s n v t)
    (H : Tracks g letter s) :
    v = freshVariable letter (Nat.nth (g.FreeNumber letter)
      (Nat.count (g.FreeNumber letter) s.counter)) ∧
    Nat.count (g.FreeNumber letter) t.counter =
      Nat.count (g.FreeNumber letter) s.counter + 1 := by
  induction h with
  | found s hfree =>
      -- The counter stands on a free number, so as many are behind it as its own index.
      have hp := not_not.mp (mt H.candidate_mem_iff.mpr hfree)
      rw [Nat.nth_count hp, candidate, H.sameLetter, FreshNames.take, Nat.count_succ, if_pos hp]
      exact ⟨rfl, rfl⟩
  | passed s n v t htaken _ ih =>
      -- What is passed is not free, and the count of free numbers stays.
      have hcount : Nat.count (g.FreeNumber letter) s.advance.counter =
          Nat.count (g.FreeNumber letter) s.counter := by
        rw [FreshNames.advance, Nat.count_succ, if_neg (H.candidate_mem_iff.mp htaken),
          Nat.add_zero]
      rw [← hcount]
      exact ih H.advance

/-- A row of calls returns the free numbers in a row. -/
theorem nth_of_draws (s t : FreshNames) (vs : List Variable) (h : Draws s vs t)
    (H : Tracks g letter s) :
    vs = (List.range vs.length).map fun i => freshVariable letter (Nat.nth (g.FreeNumber letter)
      (Nat.count (g.FreeNumber letter) s.counter + i)) := by
  induction h with
  | nil s => rfl
  | cons s n v t vs u hnext _ ih =>
      rcases nth_of_next s t n v hnext H with ⟨hv, hcount⟩
      -- The calls behind the first one begin one free number later.
      have hvs := ih (tracks_of_next s t n v hnext H)
      rw [hcount] at hvs
      rw [List.length_cons, List.range_succ_eq_map, List.map_cons, List.map_map, Nat.add_zero,
        ← hv]
      simpa only [Function.comp_def, Nat.succ_eq_add_one, Nat.add_assoc, Nat.add_comm 1] using
        congrArg (v :: ·) hvs

/-- The names that are drawn at once, from the names of the grammar alone, are those of
    the calls. -/
theorem draws_freeNumbers (g : Grammar) (letter : Char) (count : Nat) (s : FreshNames)
    (H : Tracks g letter s) :
    ∃ t, Draws s ((freeNumbers letter (g.taken letter) count s.counter).map
      (freshVariable letter)) t := by
  induction count generalizing s with
  | zero => exact ⟨s, Draws.nil s⟩
  | succ count ih =>
      rcases s.next_nextFree (g.taken letter) fun k hk => by
        rw [H.sameLetter, mem_taken]
        exact H.sameTaken k hk
        with ⟨n, t, ht, hcounter, _⟩
      -- The counter is where the next search begins.
      rcases ih t (tracks_of_next s t _ _ ht H) with ⟨u, hu⟩
      rw [hcounter, H.sameLetter] at hu
      rw [H.sameLetter] at ht
      exact ⟨u, Draws.cons s n _ t _ u ht hu⟩

/-- The calls on a generator. Every call ends, whatever the names taken are, and has one
    outcome. The free numbers of a grammar go on for ever, and the calls on its generator
    return their variables in order, from the least one on, which are the variables the
    conversion draws. So no variable comes twice, and none is in use. -/
theorem supply (g : Grammar) (letter : Char) :
    (∀ s : FreshNames, ∃ n v t, Next s n v t ∧ n ≤ s.taken.length + 1 ∧
      ∀ m w u, Next s m w u → m = n ∧ w = v ∧ u = t) ∧
    StrictMono (Nat.nth (g.FreeNumber letter)) ∧
    Set.range (Nat.nth (g.FreeNumber letter)) = Set.ofPred (g.FreeNumber letter) ∧
    ∀ count, ∃ vs t, vs.length = count ∧ Draws (ofGrammar g letter) vs t ∧
      (∀ ws u, ws.length = count → Draws (ofGrammar g letter) ws u → ws = vs ∧ u = t) ∧
      vs = (List.range count).map
        (fun i => freshVariable letter (Nat.nth (g.FreeNumber letter) i)) ∧
      vs = g.freshVariables letter count ∧ vs.Nodup ∧
      ∀ v ∈ vs, v ∉ g.defined ∧ g.occursInBody v = false := by
  have hinf := g.infinite_freeNumber letter
  refine ⟨fun s => ?_, Nat.nth_strictMono hinf, Nat.range_nth_of_infinite hinf, fun count => ?_⟩
  · rcases s.exists_next with ⟨n, v, t, h, hn⟩
    exact ⟨n, v, t, h, hn, fun m w u h' => next_unique s u t m n w v h' h⟩
  · rcases draws_freeNumbers g letter count _ (tracks_ofGrammar g letter) with ⟨t, ht⟩
    change Draws _ (g.freshVariables letter count) t at ht
    have hlen := g.length_freshVariables letter count
    -- From the first number on none has been counted yet.
    have hnth := nth_of_draws _ t _ ht (tracks_ofGrammar g letter)
    have hstart : Nat.count (g.FreeNumber letter) (ofGrammar g letter).counter = 0 :=
      g.count_freeNumber_one letter
    simp only [hlen, hstart, Nat.zero_add] at hnth
    refine ⟨_, t, hlen, ht, fun ws u hws hdraws => ?_, hnth, rfl,
      g.nodup_freshVariables letter count, fun v hv => ?_⟩
    · exact draws_unique _ u t ws _ hdraws ht (hws.trans hlen.symm)
    · have hnew := g.not_mem_mentioned_of_mem_freshVariables letter count v hv
      rw [g.mem_mentioned_iff, not_or, Bool.not_eq_true] at hnew
      exact hnew

/-- A grammar with the first and the third of the names of a letter, the third in a body
    only. -/
def gapped : Grammar := Grammar.ofRules [(⟨"T1"⟩, [[.nonterminal ⟨"T3"⟩]])]

/-- The calls pass over the names in use. -/
theorem supply_gapped : ∃ t, Draws (ofGrammar gapped 'T') [⟨"T2"⟩, ⟨"T4"⟩] t := by
  rcases (supply gapped 'T').2.2.2 2 with ⟨vs, t, _, hdraws, _, _, hvs, _⟩
  have hnames : gapped.freshVariables 'T' 2 = [⟨"T2"⟩, ⟨"T4"⟩] := by decide
  exact ⟨t, hnames ▸ hvs ▸ hdraws⟩

end FreshNames

end Chomsky
