import Chomsky.Proofs.Nullable

/-!
# Derivation Trees of the Empty Word

The nullable variables are those with a derivation tree of the empty word, and such
a tree need not be higher than the grammar has variables.

A node of such a tree is a variable together with one of its bodies. The body is not
of zero length, and all that is in it vanishes: markers do so by themselves, and
below each variable there is a tree again. So a tree over a node is really a forest,
one tree for each variable in the body, and the two are defined together.

That a variable with a tree is nullable follows by going up the tree, since the
nullable variables are closed. For the converse the search itself is watched. When a
variable is found, the variables in its vanishing body were found before it, and
their trees are put below the new node. The new tree is one higher than the highest
of these at most. As one variable is found at a time, no tree is ever higher than the
number of variables found so far, and there the bound comes from. No path has to be
cut short, because the search never builds a tree that repeats a variable on a path.

A bound on the height makes trees a finite matter: whether a variable has one can be
found out by trying all bodies to that depth.

## Main definitions

* `EmptyTree`, `EmptyForest`: The trees, and what is below their nodes.
* `EmptyTree.height`, `EmptyForest.height`: Their heights. A lone node counts one.
* `Grammar.hasEmptyTree`: The search for a tree of bounded height.

## Theorems

* `EmptyTree.mem_nullable`: A variable with a tree is nullable.
* `exists_emptyForest`: Trees of known variables make up a forest.
* `exists_emptyTree_of_mem_nullable`: A nullable variable has a tree, and a low one.
* `hasEmptyTree_iff`: What the search for trees finds.
* `mem_nullable_iff_emptyTree`: Nullable variables, trees, and the search.
-/

namespace Chomsky

mutual

/-- A derivation tree of the empty word from a variable. -/
inductive EmptyTree (g : Grammar) : Variable → Type
  | node {v : Variable} (body : Body) (mem : body ∈ g.alternatives v) (ne : body ≠ [])
      (below : EmptyForest g body) : EmptyTree g v

/-- What is below a node: nothing for a marker in its body, and a tree for every
    occurrence of a variable. -/
inductive EmptyForest (g : Grammar) : Body → Type
  | nil : EmptyForest g []
  | marker {t : Terminal} {rest : Body} (ht : t.isEpsilon = true) (others : EmptyForest g rest) :
      EmptyForest g (.terminal t :: rest)
  | tree {v : Variable} {rest : Body} (first : EmptyTree g v) (others : EmptyForest g rest) :
      EmptyForest g (.nonterminal v :: rest)

end

mutual

/-- The number of nodes on the longest path down a tree. -/
def EmptyTree.height {g : Grammar} {v : Variable} : EmptyTree g v → Nat
  | .node _ _ _ below => below.height + 1

/-- The height of the highest tree of a forest. -/
def EmptyForest.height {g : Grammar} {body : Body} : EmptyForest g body → Nat
  | .nil => 0
  | .marker _ others => others.height
  | .tree first others => max first.height others.height

end

mutual

/-- A variable with a tree is nullable. -/
theorem EmptyTree.mem_nullable {g : Grammar} {v : Variable} : EmptyTree g v → v ∈ g.nullable
  | .node body mem ne below =>
      g.mem_nullable_of_vanishes v body mem ((Body.vanishes_iff _ body).mpr ⟨ne, below.vanishes⟩)

/-- A body with a forest below it vanishes. -/
theorem EmptyForest.vanishes {g : Grammar} {body : Body} :
    EmptyForest g body → ∀ s ∈ body, s.vanishes g.nullable = true
  | .nil => fun s hs => absurd hs List.not_mem_nil
  | .marker ht others => by
      intro s hs
      rcases List.mem_cons.mp hs with rfl | hs
      · rw [Symbol.vanishes_terminal, ht]
      · exact others.vanishes s hs
  | .tree first others => by
      intro s hs
      rcases List.mem_cons.mp hs with rfl | hs
      · exact (Symbol.vanishes_nonterminal _ _).mpr first.mem_nullable
      · exact others.vanishes s hs

end

/-- Whether a symbol is a marker or a variable that passes a test. -/
def Symbol.emptyBy (test : Variable → Bool) : Symbol → Bool
  | .terminal t => t.isEpsilon
  | .nonterminal v => test v

theorem Symbol.vanishes_eq_emptyBy (known : List Variable) :
    Symbol.vanishes known = Symbol.emptyBy known.contains := by
  funext s
  cases s <;> simp [vanishes, isEpsilon, isNullable, emptyBy]

section

variable (g : Grammar) (test : Variable → Bool) (n : Nat)

/-- If a test is passed by variables with low trees only, then there is a low forest for
    every body of markers and variables that pass it. -/
theorem exists_emptyForest (htest : ∀ v, test v = true → ∃ t : EmptyTree g v, t.height ≤ n)
    (body : Body) (h : ∀ s ∈ body, s.emptyBy test = true) :
    ∃ f : EmptyForest g body, f.height ≤ n := by
  induction body with
  | nil => exact ⟨.nil, Nat.zero_le n⟩
  | cons s rest ih =>
      have hs := h s List.mem_cons_self
      rcases ih fun x hx => h x (List.mem_cons_of_mem s hx) with ⟨others, hothers⟩
      -- A marker adds nothing to the forest behind it, and a variable one low tree.
      cases s with
      | terminal t => exact ⟨.marker hs others, hothers⟩
      | nonterminal v =>
          rcases htest v hs with ⟨first, hfirst⟩
          exact ⟨.tree first others, Nat.max_le.mpr ⟨hfirst, hothers⟩⟩

/-- If all variables with low trees pass a test, then a body with a low forest is made of
    markers and variables that pass it. -/
theorem emptyBy_of_emptyForest (htest : ∀ v (t : EmptyTree g v), t.height ≤ n → test v = true)
    {body : Body} (f : EmptyForest g body) (hf : f.height ≤ n) :
    ∀ s ∈ body, s.emptyBy test = true := by
  intro s hs
  induction body with
  | nil => exact absurd hs List.not_mem_nil
  | cons x rest ih =>
      cases f with
      | marker ht others =>
          rcases List.mem_cons.mp hs with rfl | hs
          · exact ht
          · exact ih others hf hs
      | tree first others =>
          rcases Nat.max_le.mp hf with ⟨hfirst, hothers⟩
          rcases List.mem_cons.mp hs with rfl | hs
          · exact htest _ first hfirst
          · exact ih others hothers hs

end

namespace Grammar

/-- Every known variable has a tree that is no higher than the number of known
    variables. -/
def LowTrees (g : Grammar) (known : List Variable) : Prop :=
  ∀ v ∈ known, ∃ t : EmptyTree g v, t.height ≤ known.length

theorem lowTrees_seed (g : Grammar) : g.LowTrees g.nullableSeed := by
  intro v hv
  have hpos : 0 < g.nullableSeed.length := List.length_pos_of_mem hv
  rcases List.mem_map.mp hv with ⟨r, hr, rfl⟩
  rcases List.mem_filter.mp hr with ⟨hr, hany⟩
  rcases List.any_eq_true.mp hany with ⟨body, hb, heps⟩
  rw [← g.alternatives_of_mem_rules r hr] at hb
  -- The body is a single marker, and a node over it has nothing below.
  match body, heps with
  | [s], heps =>
      cases s with
      | terminal t =>
          refine ⟨.node [.terminal t] hb (List.cons_ne_nil _ _) (.marker heps .nil), ?_⟩
          simp only [EmptyTree.height, EmptyForest.height]
          omega
      | nonterminal u => exact absurd heps Bool.false_ne_true

theorem lowTrees_noteNullable (g : Grammar) (known : List Variable) (r : Rule) (hr : r ∈ g.rules)
    (h : g.LowTrees known) : g.LowTrees (noteNullable known r) := by
  rcases noteNullable_cases known r with he | ⟨he, _, body, hb, hvan⟩
  · rwa [he]
  · rw [he]
    intro v hv
    rw [List.length_append, List.length_singleton]
    rcases List.mem_append.mp hv with hv | hv
    · -- An older tree is lower than it has to be.
      rcases h v hv with ⟨t, ht⟩
      exact ⟨t, by omega⟩
    · rw [List.mem_singleton.mp hv]
      rw [Body.vanishes_iff, Symbol.vanishes_eq_emptyBy] at hvan
      rw [← g.alternatives_of_mem_rules r hr] at hb
      have htest : ∀ u, known.contains u = true → ∃ t : EmptyTree g u, t.height ≤ known.length :=
        fun u hu => h u (List.contains_iff_mem.mp hu)
      rcases exists_emptyForest g _ _ htest body hvan.2 with ⟨below, hbelow⟩
      refine ⟨.node body hb hvan.1 below, ?_⟩
      simp only [EmptyTree.height]
      omega

/-- A nullable variable has a tree that is no higher than the grammar has
    variables. -/
theorem exists_emptyTree_of_mem_nullable (g : Grammar) (v : Variable) (hv : v ∈ g.nullable) :
    ∃ t : EmptyTree g v, t.height ≤ g.size := by
  have hlow : g.LowTrees g.nullable :=
    g.saturate_induction g.LowTrees g.lowTrees_seed g.lowTrees_noteNullable
  rcases hlow v hv with ⟨t, ht⟩
  exact ⟨t, ht.trans (g.length_le_size g.nullable g.nullableSoFar_nullable)⟩

/-- Whether a variable has a tree up to the given height, found out by trying all its
    bodies and all trees below them. -/
def hasEmptyTree (g : Grammar) : (height : Nat) → Variable → Bool
  | 0, _ => false
  | n + 1, v =>
      (g.alternatives v).any fun body =>
        !body.isEmpty && body.all (Symbol.emptyBy (g.hasEmptyTree n))

theorem hasEmptyTree_iff (g : Grammar) (n : Nat) (v : Variable) :
    g.hasEmptyTree n v = true ↔ ∃ t : EmptyTree g v, t.height ≤ n := by
  induction n generalizing v with
  | zero =>
      -- Every tree has a node.
      constructor
      · exact fun h => absurd h Bool.false_ne_true
      · rintro ⟨⟨body, mem, ne, below⟩, ht⟩
        exact absurd ht (Nat.not_succ_le_zero _)
  | succ n ih =>
      simp only [hasEmptyTree, List.any_eq_true, Bool.and_eq_true, Bool.not_eq_true',
        List.isEmpty_eq_false_iff, List.all_eq_true]
      constructor
      · rintro ⟨body, mem, ne, hall⟩
        rcases exists_emptyForest g _ n (fun u => (ih u).mp) body hall with ⟨below, hbelow⟩
        exact ⟨.node body mem ne below, Nat.succ_le_succ hbelow⟩
      · rintro ⟨⟨body, mem, ne, below⟩, ht⟩
        refine ⟨body, mem, ne, ?_⟩
        exact emptyBy_of_emptyForest g _ n (fun u t hu => (ih u).mpr ⟨t, hu⟩) below
          (Nat.le_of_succ_le_succ ht)

/-- A variable is nullable exactly if it has a derivation tree of the empty word. Then it
    has one that is no higher than one more than the number of variables, and the search
    of that depth tells the nullable variables from the others. -/
theorem mem_nullable_iff_emptyTree (g : Grammar) (v : Variable) :
    (v ∈ g.nullable ↔ Nonempty (EmptyTree g v)) ∧
    (Nonempty (EmptyTree g v) ↔ ∃ t : EmptyTree g v, t.height ≤ g.size + 1) ∧
    (v ∈ g.nullable ↔ g.hasEmptyTree (g.size + 1) v = true) := by
  have hlow : v ∈ g.nullable → ∃ t : EmptyTree g v, t.height ≤ g.size + 1 := by
    intro hv
    rcases g.exists_emptyTree_of_mem_nullable v hv with ⟨t, ht⟩
    exact ⟨t, by omega⟩
  refine ⟨⟨?_, ?_⟩, ⟨?_, ?_⟩, ?_⟩
  · intro hv
    rcases hlow hv with ⟨t, _⟩
    exact ⟨t⟩
  · rintro ⟨t⟩
    exact t.mem_nullable
  · rintro ⟨t⟩
    exact hlow t.mem_nullable
  · rintro ⟨t, _⟩
    exact ⟨t⟩
  · rw [hasEmptyTree_iff]
    constructor
    · exact hlow
    · rintro ⟨t, _⟩
      exact t.mem_nullable

end Grammar

end Chomsky
