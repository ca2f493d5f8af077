import Chomsky.Nullable
import Chomsky.Proofs.Language

/-!
# Nullable Variables and the Empty Word

The search for nullable variables finds exactly those that derive the empty word.

One step of the search looks at one rule. It either leaves the list of known
variables alone or puts the variable of the rule at its end, and it does the
latter only for a body that vanishes. So three things stay true from the seed to
the answer: the variables are distinct, all are in the grammar, and all derive
the empty word. They are the invariant `NullableSoFar`.

That the search misses nothing is a matter of its end. A scan that adds nothing
has looked at every rule with the final list, so every variable with a vanishing
body is in it. Such a scan comes in time, because every other one makes the list
longer and the list cannot outgrow the grammar.

## Main definitions

* `Grammar.NullableSoFar`: The invariant of the search.

## Theorems

* `nullableSoFar_scan`: Scanning rules keeps the invariant.
* `saturate_induction`: What the seed has and every step keeps, the answer has.
* `mem_scan_of_vanishes`: A scan adds every variable with a vanishing body.
* `nullableRound_nullable`: One more scan adds nothing to the answer.
* `mem_nullable_of_vanishes`: The answer is closed.
* `mem_nullable_iff`: The nullable variables are those that derive the empty
  word.
-/

namespace Chomsky

theorem one_le_iff (L : Language Terminal) : 1 ≤ L ↔ [] ∈ L := Set.singleton_subset_iff

@[simp] theorem Symbol.vanishes_terminal (known : List Variable) (t : Terminal) :
    Symbol.vanishes known (.terminal t) = t.isEpsilon := by
  simp only [Symbol.vanishes, Symbol.isEpsilon, Symbol.isNullable, Bool.or_false]

@[simp] theorem Symbol.vanishes_nonterminal (known : List Variable) (v : Variable) :
    Symbol.vanishes known (.nonterminal v) = true ↔ v ∈ known := by
  simp only [Symbol.vanishes, Symbol.isEpsilon, Symbol.isNullable, Bool.false_or,
    List.contains_iff_mem]

theorem Symbol.vanishes_mono (known more : List Variable) (h : known ⊆ more) (s : Symbol)
    (hs : s.vanishes known = true) : s.vanishes more = true := by
  cases s with
  | terminal t => exact hs
  | nonterminal v =>
      rw [Symbol.vanishes_nonterminal] at hs ⊢
      exact h hs

theorem Body.vanishes_iff (known : List Variable) (body : Body) :
    body.vanishes known = true ↔ body ≠ [] ∧ ∀ s ∈ body, s.vanishes known = true := by
  simp only [Body.vanishes, Bool.and_eq_true, Bool.not_eq_true', List.isEmpty_eq_false_iff,
    List.all_eq_true]

theorem Body.one_le_language (known : List Variable) (I : Interpretation)
    (hI : ∀ v ∈ known, [] ∈ I v) (body : Body) (h : ∀ s ∈ body, s.vanishes known = true) :
    1 ≤ body.language I := by
  induction body with
  | nil => exact le_refl _
  | cons s rest ih =>
      have hrest := ih fun x hx => h x (List.mem_cons_of_mem s hx)
      have hs : 1 ≤ s.language I := by
        have hvan := h s List.mem_cons_self
        cases s with
        | terminal t =>
            rw [Symbol.vanishes_terminal] at hvan
            rw [Symbol.language_of_isEpsilon I (.terminal t) hvan]
        | nonterminal v =>
            rw [Symbol.vanishes_nonterminal] at hvan
            exact (one_le_iff _).mpr (hI v hvan)
      -- The empty word of the body is that of the symbol and that of the rest.
      rw [Body.language_cons]
      exact le_trans (le_of_eq (mul_one 1).symm) (mul_le_mul' hs hrest)

theorem Body.vanishes_of_nil_mem (known : List Variable) (I : Interpretation)
    (hI : ∀ v, [] ∈ I v → v ∈ known) (body : Body) (h : [] ∈ body.language I) :
    ∀ s ∈ body, s.vanishes known = true := by
  induction body with
  | nil => exact fun s hs => absurd hs List.not_mem_nil
  | cons s rest ih =>
      -- A product has the empty word only if both factors do.
      rw [Body.language_cons] at h
      rcases Language.mem_mul.mp h with ⟨a, ha, b, hb, hab⟩
      rcases List.append_eq_nil_iff.mp hab with ⟨rfl, rfl⟩
      intro x hx
      rcases List.mem_cons.mp hx with rfl | hx
      · cases x with
        | terminal t =>
            -- The word of an ordinary terminal has a letter.
            rw [Symbol.vanishes_terminal]
            by_contra ht
            rw [Symbol.language, if_neg ht] at ha
            exact absurd ha (List.cons_ne_nil t []).symm
        | nonterminal v =>
            rw [Symbol.vanishes_nonterminal]
            exact hI v ha
      · exact ih hb x hx

namespace Grammar

/-- What is true of the known variables at every point of the search: none is
    known twice, all are in the grammar, and all derive the empty word. -/
structure NullableSoFar (g : Grammar) (known : List Variable) : Prop where
  nodup : known.Nodup
  subset : known ⊆ g.defined
  sound : ∀ v ∈ known, [] ∈ g.language v

/-- A step leaves the list as it is or extends it by the variable of its rule,
    which then has a vanishing body. -/
theorem noteNullable_cases (known : List Variable) (r : Rule) :
    noteNullable known r = known ∨
      noteNullable known r = known ++ [r.1] ∧ r.1 ∉ known ∧
        ∃ body ∈ r.2, body.vanishes known = true := by
  simp only [noteNullable, List.contains_iff_mem]
  by_cases hk : r.1 ∈ known
  · exact Or.inl (if_pos hk)
  · rw [if_neg hk]
    by_cases hv : r.2.any (Body.vanishes known) = true
    · exact Or.inr ⟨if_pos hv, hk, List.any_eq_true.mp hv⟩
    · exact Or.inl (if_neg hv)

theorem prefix_noteNullable (known : List Variable) (r : Rule) :
    known <+: noteNullable known r := by
  rcases noteNullable_cases known r with h | ⟨h, _⟩
  · rw [h]
  · rw [h]
    exact List.prefix_append known [r.1]

theorem mem_noteNullable (known : List Variable) (r : Rule) (body : Body) (hb : body ∈ r.2)
    (h : body.vanishes known = true) : r.1 ∈ noteNullable known r := by
  have hany : r.2.any (Body.vanishes known) = true := List.any_eq_true.mpr ⟨body, hb, h⟩
  simp only [noteNullable, List.contains_iff_mem, if_pos hany]
  by_cases hk : r.1 ∈ known
  · rwa [if_pos hk]
  · rw [if_neg hk]
    exact List.mem_append_right known List.mem_cons_self

theorem nullableSoFar_noteNullable (g : Grammar) (known : List Variable) (r : Rule)
    (hr : r ∈ g.rules) (h : g.NullableSoFar known) : g.NullableSoFar (noteNullable known r) := by
  rcases noteNullable_cases known r with he | ⟨he, hnew, body, hb, hvan⟩
  · rwa [he]
  · rw [he]
    refine ⟨?_, ?_, ?_⟩
    · exact List.nodup_append.mpr ⟨h.nodup, List.nodup_singleton r.1, fun v hv w hw e =>
        hnew (List.mem_singleton.mp hw ▸ e ▸ hv)⟩
    · refine List.append_subset.mpr ⟨h.subset, ?_⟩
      exact List.cons_subset.mpr ⟨List.mem_map_of_mem hr, List.nil_subset _⟩
    · intro v hv
      rcases List.mem_append.mp hv with hv | hv
      · exact h.sound v hv
      · rw [List.mem_singleton.mp hv]
        rw [Body.vanishes_iff] at hvan
        have hmem : body ∈ g.alternatives r.1 := (g.alternatives_of_mem_rules r hr).symm ▸ hb
        have hone := Body.one_le_language known g.language h.sound body hvan.2
        exact (one_le_iff _).mp (le_trans hone (g.language_le_of_mem r.1 body hmem hvan.1))

theorem prefix_scan (rules : List Rule) (known : List Variable) :
    known <+: rules.foldl noteNullable known := by
  induction rules generalizing known with
  | nil => exact List.prefix_refl known
  | cons r rest ih => exact (prefix_noteNullable known r).trans (ih (noteNullable known r))

theorem nullableSoFar_scan (g : Grammar) (rules : List Rule) (hsub : rules ⊆ g.rules)
    (known : List Variable) (h : g.NullableSoFar known) :
    g.NullableSoFar (rules.foldl noteNullable known) := by
  induction rules generalizing known with
  | nil => exact h
  | cons r rest ih =>
      have hstep := g.nullableSoFar_noteNullable known r (hsub List.mem_cons_self) h
      exact ih (List.subset_of_cons_subset hsub) _ hstep

theorem nullableSoFar_round (g : Grammar) (known : List Variable) (h : g.NullableSoFar known) :
    g.NullableSoFar (g.nullableRound known) :=
  g.nullableSoFar_scan g.rules (List.Subset.refl _) known h

/-- A body that vanishes before a scan makes its variable known after it. -/
theorem mem_scan_of_vanishes (rules : List Rule) (known : List Variable) (r : Rule)
    (hr : r ∈ rules) (body : Body) (hb : body ∈ r.2) (h : body.vanishes known = true) :
    r.1 ∈ rules.foldl noteNullable known := by
  induction rules generalizing known with
  | nil => exact absurd hr List.not_mem_nil
  | cons q rest ih =>
      rcases List.mem_cons.mp hr with rfl | hr
      · exact (prefix_scan rest _).subset (mem_noteNullable known r body hb h)
      · -- The step for another rule only adds to what is known.
        rw [Body.vanishes_iff] at h
        refine ih _ hr ((Body.vanishes_iff _ body).mpr ⟨h.1, fun s hs => ?_⟩)
        exact Symbol.vanishes_mono known _ (prefix_noteNullable known q).subset s (h.2 s hs)

theorem nullableRound_eq_of_length (g : Grammar) (known : List Variable)
    (h : (g.nullableRound known).length = known.length) : g.nullableRound known = known :=
  ((prefix_scan g.rules known).eq_of_length h.symm).symm

/-- A round that is not the last makes the list longer. -/
theorem length_lt_of_length_ne (g : Grammar) (known : List Variable)
    (hmore : (g.nullableRound known).length ≠ known.length) :
    known.length < (g.nullableRound known).length :=
  Nat.lt_of_le_of_ne (prefix_scan g.rules known).length_le hmore.symm

theorem length_le_size (g : Grammar) (known : List Variable) (h : g.NullableSoFar known) :
    known.length ≤ g.size := by
  have hle := h.nodup.length_le_of_subset h.subset
  rwa [defined, List.length_map] at hle

/-- What holds of the seed and is kept by every step for a rule of the grammar holds of
    the nullable variables. -/
theorem saturate_induction (g : Grammar) (P : List Variable → Prop) (hseed : P g.nullableSeed)
    (hstep : ∀ known, ∀ r ∈ g.rules, P known → P (noteNullable known r)) : P g.nullable := by
  have hscan : ∀ known, P known → P (g.nullableRound known) := fun known hknown =>
    List.foldlRecOn g.rules noteNullable hknown fun found hfound r hr => hstep found r hr hfound
  have hrounds : ∀ rounds known, P known → P (g.saturate rounds known) := by
    intro rounds
    induction rounds with
    | zero => exact fun known hknown => hknown
    | succ n ih =>
        intro known hknown
        simp only [saturate]
        split
        · exact hknown
        · exact ih _ (hscan known hknown)
  exact hrounds _ _ hseed

/-- With enough rounds the search ends in a list that one more scan leaves
    alone. -/
theorem nullableRound_saturate (g : Grammar) (rounds : Nat) (known : List Variable)
    (h : g.NullableSoFar known) (hlen : g.size < rounds + known.length) :
    g.nullableRound (g.saturate rounds known) = g.saturate rounds known := by
  induction rounds generalizing known with
  | zero =>
      -- The list would be longer than the grammar.
      have hle := g.length_le_size known h
      omega
  | succ n ih =>
      simp only [saturate]
      by_cases he : (g.nullableRound known).length = known.length
      · rw [if_pos he]
        exact g.nullableRound_eq_of_length known he
      · rw [if_neg he]
        -- This round made the list longer, so one round less is enough.
        have hlt := g.length_lt_of_length_ne known he
        exact ih _ (g.nullableSoFar_round known h) (by omega)

theorem nullableSoFar_seed (g : Grammar) : g.NullableSoFar g.nullableSeed := by
  have hsub : g.nullableSeed.Sublist g.defined := List.filter_sublist.map Prod.fst
  refine ⟨g.distinct.sublist hsub, hsub.subset, fun v hv => ?_⟩
  rcases List.mem_map.mp hv with ⟨r, hr, rfl⟩
  rcases List.mem_filter.mp hr with ⟨hr, hany⟩
  rcases List.any_eq_true.mp hany with ⟨body, hb, heps⟩
  have hmem : body ∈ g.alternatives r.1 := (g.alternatives_of_mem_rules r hr).symm ▸ hb
  match body, heps with
  | [s], heps =>
      have hle := g.language_le_of_mem r.1 [s] hmem (List.cons_ne_nil s [])
      rw [Body.language_singleton, Symbol.language_of_isEpsilon g.language s heps] at hle
      exact (one_le_iff _).mp hle

theorem nullableSoFar_nullable (g : Grammar) : g.NullableSoFar g.nullable :=
  g.saturate_induction g.NullableSoFar g.nullableSoFar_seed g.nullableSoFar_noteNullable

theorem nullableRound_nullable (g : Grammar) : g.nullableRound g.nullable = g.nullable :=
  g.nullableRound_saturate _ _ g.nullableSoFar_seed (by omega)

/-- A variable with a vanishing body is nullable. -/
theorem mem_nullable_of_vanishes (g : Grammar) (v : Variable) (body : Body)
    (hb : body ∈ g.alternatives v) (h : body.vanishes g.nullable = true) : v ∈ g.nullable := by
  rcases (g.mem_alternatives_iff v body).mp hb with ⟨r, hr, rfl, hmem⟩
  rw [← nullableRound_nullable]
  exact mem_scan_of_vanishes g.rules g.nullable r hr body hmem h

/-- The nullable variables are those that derive the empty word. -/
theorem mem_nullable_iff (g : Grammar) (v : Variable) : v ∈ g.nullable ↔ [] ∈ g.language v := by
  constructor
  · exact g.nullableSoFar_nullable.sound v
  · -- Every word is allowed to a nullable variable, and the non-empty ones to the others.
    let I : Interpretation := fun u => {w | w = [] → u ∈ g.nullable}
    have hI : g.Closed I := by
      intro u body hb hne w hw hnil
      rw [hnil] at hw
      refine g.mem_nullable_of_vanishes u body hb ((Body.vanishes_iff _ body).mpr ⟨hne, ?_⟩)
      exact Body.vanishes_of_nil_mem g.nullable I (fun x hx => hx rfl) body hw
    exact fun h => g.language_le_of_closed I hI v h rfl

end Grammar

end Chomsky
