import Chomsky.Grammar.Basic

/-!
# Fresh Names

Variables introduced by the conversion are a letter followed by a number counted
from one. A number is passed over when the name it makes is in use anywhere in
the grammar, on a left-hand or a right-hand side.

The search for the next number needs a bound. Different numbers make different
names, so among one more number than there are names in use, one is free. Only
names that begin with the letter can clash, which keeps both the bound and the
search short.

## Main definitions

* `Grammar.mentioned`: The variables of a grammar, defined or not.
* `freshVariable`: The variable of a letter and a number.
* `Grammar.taken`: The names in use that begin with a letter.
* `nextFree`: The first free number from a given one on.
* `Grammar.freshVariables`: The first free variables of a letter.

## Theorems

* `freshVariable_injective`: Different numbers make different names.
* `nextFree_not_mem`: The number found is free.
* `pairwise_freeNumbers`: The numbers of fresh names increase.
* `nodup_freshVariables`: No fresh variable is drawn twice.
* `not_mem_mentioned_of_mem_freshVariables`: No fresh variable is in use.
-/

namespace Chomsky

/-- The variables of a grammar, whether they are defined or only occur in
    bodies. -/
def Grammar.mentioned (g : Grammar) : List Variable :=
  g.rules.flatMap fun r => r.1 :: r.2.flatten.filterMap Symbol.asVariable

/-- The variable named by a letter followed by a number in decimal. -/
def freshVariable (letter : Char) (k : Nat) : Variable :=
  ⟨String.singleton letter ++ toString k⟩

theorem freshVariable_injective (letter : Char) (i j : Nat)
    (h : freshVariable letter i = freshVariable letter j) : i = j := by
  have hlist := congrArg (fun v => v.name.toList) h
  simp only [freshVariable, String.toList_append, List.append_cancel_left_eq] at hlist
  have hnum := congrArg (fun ds => Nat.ofDigitChars 10 ds 0) hlist
  -- Reading the digits gives the number back.
  simpa [Nat.toString_eq_ofList_toDigits] using hnum

/-- The names in use that begin with a letter, each once. -/
def Grammar.taken (g : Grammar) (letter : Char) : List String :=
  ((g.mentioned.map Variable.name).filter fun s => s.toList.head? == some letter).eraseDups

theorem mem_taken (g : Grammar) (letter : Char) (k : Nat) :
    (freshVariable letter k).name ∈ g.taken letter ↔ freshVariable letter k ∈ g.mentioned := by
  have hhead : (freshVariable letter k).name.toList.head? = some letter := by
    simp [freshVariable]
  simp only [Grammar.taken, List.mem_eraseDups, List.mem_filter, List.mem_map, hhead,
    beq_self_eq_true, and_true]
  constructor
  · intro hx
    rcases hx with ⟨v, hv, hname⟩
    have : v = freshVariable letter k := by
      cases v
      simp only [freshVariable] at hname ⊢
      rw [hname]
    exact this ▸ hv
  · exact fun h => ⟨_, h, rfl⟩

/-- The first number from `k` on whose name is not taken, when there is one
    among the first `tries` of them. -/
def nextFree (letter : Char) (taken : List String) : (tries k : Nat) → Nat
  | 0, k => k
  | n + 1, k =>
      if taken.contains (freshVariable letter k).name then nextFree letter taken n (k + 1) else k

theorem le_nextFree (letter : Char) (taken : List String) (tries k : Nat) :
    k ≤ nextFree letter taken tries k := by
  induction tries generalizing k with
  | zero => exact Nat.le_refl k
  | succ n ih =>
      simp only [nextFree]
      split
      · have := ih (k + 1)
        omega
      · exact Nat.le_refl k

theorem nextFree_le (letter : Char) (taken : List String) (tries k : Nat) :
    nextFree letter taken tries k ≤ k + tries := by
  induction tries generalizing k with
  | zero => exact Nat.le_refl k
  | succ n ih =>
      simp only [nextFree]
      split
      · have := ih (k + 1)
        omega
      · omega

/-- Every number that was passed over is taken. -/
theorem mem_of_lt_nextFree (letter : Char) (taken : List String) (tries k i : Nat)
    (hk : k ≤ i) (hi : i < nextFree letter taken tries k) :
    (freshVariable letter i).name ∈ taken := by
  induction tries generalizing k with
  | zero =>
      simp only [nextFree] at hi
      omega
  | succ n ih =>
      simp only [nextFree] at hi
      split at hi
      · next h =>
          rcases Nat.eq_or_lt_of_le hk with rfl | hlt
          · simpa using h
          · exact ih (k + 1) hlt hi
      · omega

/-- If even the number found is taken, the search has run out of tries. -/
theorem nextFree_eq_of_mem (letter : Char) (taken : List String) (tries k : Nat)
    (h : (freshVariable letter (nextFree letter taken tries k)).name ∈ taken) :
    nextFree letter taken tries k = k + tries := by
  induction tries generalizing k with
  | zero => rfl
  | succ n ih =>
      simp only [nextFree] at h ⊢
      split
      · next hc =>
          rw [if_pos hc] at h
          rw [ih (k + 1) h]
          omega
      · next hc =>
          rw [if_neg hc] at h
          exact absurd (by simpa using h) hc

/-- The number found is free when there are as many tries as names taken: one
    more name than those cannot be among them. -/
theorem nextFree_not_mem (letter : Char) (taken : List String) (k : Nat) :
    (freshVariable letter (nextFree letter taken taken.length k)).name ∉ taken := by
  intro h
  have hend := nextFree_eq_of_mem letter taken taken.length k h
  -- The numbers tried and the one found make different names.
  have hnodup : ((List.range (taken.length + 1)).map fun i =>
      (freshVariable letter (k + i)).name).Nodup := by
    refine List.Pairwise.map _ (fun i j hij he => hij ?_) List.nodup_range
    have := freshVariable_injective letter (k + i) (k + j) (by
      simp only [freshVariable] at he ⊢
      rw [he])
    omega
  -- All of these names are taken.
  have hsub : ((List.range (taken.length + 1)).map fun i =>
      (freshVariable letter (k + i)).name) ⊆ taken := by
    intro s hs
    rcases List.mem_map.mp hs with ⟨i, hi, rfl⟩
    rw [List.mem_range] at hi
    rcases Nat.eq_or_lt_of_le (Nat.le_of_lt_succ hi) with rfl | hlt
    · exact hend ▸ h
    · exact mem_of_lt_nextFree letter taken taken.length k (k + i) (by omega) (by omega)
  have hlen := hnodup.length_le_of_subset hsub
  rw [List.length_map, List.length_range] at hlen
  omega

/-- The numbers of the first `count` free names, from `k` on. -/
def freeNumbers (letter : Char) (taken : List String) : (count k : Nat) → List Nat
  | 0, _ => []
  | n + 1, k =>
      let i := nextFree letter taken taken.length k
      i :: freeNumbers letter taken n (i + 1)

@[simp] theorem length_freeNumbers (letter : Char) (taken : List String) (count k : Nat) :
    (freeNumbers letter taken count k).length = count := by
  induction count generalizing k with
  | zero => rfl
  | succ n ih => simp only [freeNumbers, List.length_cons, ih]

theorem le_of_mem_freeNumbers (letter : Char) (taken : List String) (count k i : Nat)
    (h : i ∈ freeNumbers letter taken count k) : k ≤ i := by
  induction count generalizing k with
  | zero => simp [freeNumbers] at h
  | succ n ih =>
      simp only [freeNumbers, List.mem_cons] at h
      have hle := le_nextFree letter taken taken.length k
      rcases h with rfl | h
      · exact hle
      · have := ih _ h
        omega

theorem pairwise_freeNumbers (letter : Char) (taken : List String) (count k : Nat) :
    (freeNumbers letter taken count k).Pairwise (· < ·) := by
  induction count generalizing k with
  | zero => exact List.Pairwise.nil
  | succ n ih =>
      simp only [freeNumbers, List.pairwise_cons]
      refine ⟨fun i hi => ?_, ih _⟩
      exact le_of_mem_freeNumbers letter taken n _ i hi

theorem not_mem_of_mem_freeNumbers (letter : Char) (taken : List String) (count k i : Nat)
    (h : i ∈ freeNumbers letter taken count k) : (freshVariable letter i).name ∉ taken := by
  induction count generalizing k with
  | zero => simp [freeNumbers] at h
  | succ n ih =>
      simp only [freeNumbers, List.mem_cons] at h
      rcases h with rfl | h
      · exact nextFree_not_mem letter taken k
      · exact ih _ h

namespace Grammar

/-- The first `count` variables of a letter whose names are not in use. -/
def freshVariables (g : Grammar) (letter : Char) (count : Nat) : List Variable :=
  (freeNumbers letter (g.taken letter) count 1).map (freshVariable letter)

@[simp] theorem length_freshVariables (g : Grammar) (letter : Char) (count : Nat) :
    (g.freshVariables letter count).length = count := by
  rw [freshVariables, List.length_map, length_freeNumbers]

theorem nodup_freshVariables (g : Grammar) (letter : Char) (count : Nat) :
    (g.freshVariables letter count).Nodup := by
  refine List.Pairwise.map _ (fun i j hij he => ?_) (pairwise_freeNumbers letter _ count 1)
  have := freshVariable_injective letter i j he
  omega

theorem not_mem_mentioned_of_mem_freshVariables (g : Grammar) (letter : Char) (count : Nat)
    (v : Variable) (h : v ∈ g.freshVariables letter count) : v ∉ g.mentioned := by
  rcases List.mem_map.mp h with ⟨i, hi, rfl⟩
  rw [← mem_taken]
  exact not_mem_of_mem_freeNumbers letter _ count 1 i hi

theorem mem_mentioned_of_mem_defined (g : Grammar) (v : Variable) (h : v ∈ g.defined) :
    v ∈ g.mentioned := by
  rcases List.mem_map.mp h with ⟨r, hr, rfl⟩
  exact List.mem_flatMap.mpr ⟨r, hr, List.mem_cons_self⟩

theorem mem_mentioned_of_mem_body (g : Grammar) (body : Body) (v : Variable)
    (hb : body ∈ g.bodies) (hv : .nonterminal v ∈ body) : v ∈ g.mentioned := by
  rcases List.mem_flatMap.mp hb with ⟨r, hr, hbody⟩
  refine List.mem_flatMap.mpr ⟨r, hr, List.mem_cons_of_mem _ ?_⟩
  exact List.mem_filterMap.mpr ⟨.nonterminal v, List.mem_flatten.mpr ⟨body, hbody, hv⟩, rfl⟩

/-- Fresh variables behind the variables of a grammar leave all of them
    distinct. -/
theorem nodup_defined_append_freshVariables (g : Grammar) (letter : Char) (count : Nat) :
    (g.defined ++ g.freshVariables letter count).Nodup := by
  rw [List.nodup_append]
  refine ⟨g.distinct, g.nodup_freshVariables letter count, fun v hv w hw he => ?_⟩
  refine g.not_mem_mentioned_of_mem_freshVariables letter count w hw ?_
  exact he ▸ g.mem_mentioned_of_mem_defined v hv

end Grammar

end Chomsky
