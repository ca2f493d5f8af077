import Chomsky.Epsilon
import Chomsky.Proofs.Nullable

/-!
# Empty Productions and the Language

Removing empty productions takes the empty word from every language and nothing
else.

The variants of a body are the distributive law. Let every nullable variable
have the empty word besides the words it keeps. The language of a body is then a
product of sums, one factor for each symbol, and multiplied out it has one
summand for each variant. So a body of the old grammar has the words of its
variants and no more. Both directions follow from that: the old languages without
the empty word are closed in the new grammar, and the new languages with the
empty word given back to the nullable variables are closed in the old one.

The empty production that the start symbol may retain does no harm, because the
start symbol occurs in no body: it adds the empty word to one language and
changes no product.

## Main definitions

* `withEmptyWord`: Languages with the empty word given to some variables.

## Theorems

* `language_withEmptyWord`: The words of a body are those of its variants.
* `mem_alternatives_withoutEpsilon`: The alternatives are the variants.
* `mem_language_withoutEpsilon`: Only the empty word is lost.
* `mem_language_pushUnique_epsilon`: An empty production of a variable that
  occurs in no body.
* `eq_of_eliminateEpsilon`: What the stage returns.
* `language_eliminateEpsilon`: The languages and the markers after the stage.
-/

namespace Chomsky

/-- The languages of an assignment, with the empty word given to some
    variables. -/
def withEmptyWord (nullable : List Variable) (I : Interpretation) : Interpretation :=
  fun v => if v ∈ nullable then I v + 1 else I v

theorem mem_list_sum (languages : List (Language Terminal)) (w : List Terminal) :
    w ∈ languages.sum ↔ ∃ L ∈ languages, w ∈ L := by
  induction languages with
  | nil => simp only [List.sum_nil, Language.notMem_zero, List.not_mem_nil, false_and,
      exists_false]
  | cons L rest ih => simp only [List.sum_cons, Language.mem_add, ih, List.exists_mem_cons_iff]

namespace Symbol

theorem language_withEmptyWord_of_isNullable (nullable : List Variable) (I : Interpretation)
    (s : Symbol) (h : s.isNullable nullable = true) :
    s.language (withEmptyWord nullable I) = s.language I + 1 := by
  cases s with
  | terminal t => exact absurd h Bool.false_ne_true
  | nonterminal v => exact if_pos (List.contains_iff_mem.mp h)

theorem language_withEmptyWord_of_not_isNullable (nullable : List Variable) (I : Interpretation)
    (s : Symbol) (h : s.isNullable nullable = false) :
    s.language (withEmptyWord nullable I) = s.language I := by
  cases s with
  | terminal t => rfl
  | nonterminal v =>
      refine if_neg fun hv => ?_
      rw [isNullable, List.contains_iff_mem.mpr hv] at h
      exact Bool.false_ne_true h.symm

end Symbol

namespace Body

theorem variants_of_isEpsilon (nullable : List Variable) (s : Symbol) (rest : Body)
    (h : s.isEpsilon = true) : variants nullable (s :: rest) = variants nullable rest := by
  rw [variants, if_pos h]

theorem variants_of_isNullable (nullable : List Variable) (s : Symbol) (rest : Body)
    (h : s.isEpsilon = false) (hn : s.isNullable nullable = true) :
    variants nullable (s :: rest) =
      (variants nullable rest).map (s :: ·) ++ variants nullable rest := by
  rw [variants, if_neg (Bool.eq_false_iff.mp h), if_pos hn]

theorem variants_of_not_isNullable (nullable : List Variable) (s : Symbol) (rest : Body)
    (h : s.isEpsilon = false) (hn : s.isNullable nullable = false) :
    variants nullable (s :: rest) = (variants nullable rest).map (s :: ·) := by
  rw [variants, if_neg (Bool.eq_false_iff.mp h), if_neg (Bool.eq_false_iff.mp hn)]

theorem nullableCount_of_isNullable (nullable : List Variable) (s : Symbol) (rest : Body)
    (h : s.isNullable nullable = true) :
    nullableCount nullable (s :: rest) = nullableCount nullable rest + 1 :=
  List.countP_cons_of_pos h

theorem nullableCount_of_not_isNullable (nullable : List Variable) (s : Symbol) (rest : Body)
    (h : s.isNullable nullable = false) :
    nullableCount nullable (s :: rest) = nullableCount nullable rest :=
  List.countP_cons_of_neg (Bool.eq_false_iff.mp h)

/-- A marker is a terminal, so that no list of variables has it counted. -/
theorem nullableCount_of_isEpsilon (nullable : List Variable) (s : Symbol) (rest : Body)
    (h : s.isEpsilon = true) : nullableCount nullable (s :: rest) = nullableCount nullable rest := by
  cases s with
  | terminal t => exact nullableCount_of_not_isNullable nullable _ rest rfl
  | nonterminal v => exact absurd h Bool.false_ne_true

/-- The first symbol of a body is dropped when it vanishes, and it is kept unless
    it is a marker. -/
theorem mem_variants_cons (nullable : List Variable) (s : Symbol) (rest variant : Body) :
    variant ∈ variants nullable (s :: rest) ↔
      (s.vanishes nullable = true ∧ variant ∈ variants nullable rest) ∨
        (s.isEpsilon = false ∧ ∃ tail ∈ variants nullable rest, variant = s :: tail) := by
  cases he : s.isEpsilon with
  | true =>
      simp only [variants_of_isEpsilon nullable s rest he, Symbol.vanishes, he, Bool.true_or,
        true_and, Bool.true_eq_false, false_and, or_false]
  | false =>
      cases hn : s.isNullable nullable with
      | true =>
          simp only [variants_of_isNullable nullable s rest he hn, Symbol.vanishes, he, hn,
            List.mem_append, List.mem_map, Bool.or_true, true_and, eq_comm, or_comm]
      | false =>
          simp only [variants_of_not_isNullable nullable s rest he hn, Symbol.vanishes, he, hn,
            List.mem_map, Bool.or_self, Bool.false_eq_true, false_and, false_or, true_and,
            eq_comm]

theorem sum_map_language_cons (I : Interpretation) (s : Symbol) (tails : List Body) :
    ((tails.map (s :: ·)).map (language I)).sum =
      s.language I * (tails.map (language I)).sum := by
  rw [List.map_map, ← List.sum_map_mul_left]
  refine congrArg List.sum (List.map_congr_left fun body _ => ?_)
  exact language_cons I s body

/-- Multiplied out, a product of languages some of which have got the empty word
    is the sum over the variants. -/
theorem language_withEmptyWord (nullable : List Variable) (I : Interpretation) (body : Body) :
    body.language (withEmptyWord nullable I) =
      ((body.variants nullable).map (language I)).sum := by
  induction body with
  | nil => simp only [variants, List.map_cons, List.map_nil, List.sum_cons, List.sum_nil,
      language_nil, add_zero]
  | cons s rest ih =>
      rw [language_cons, ih]
      cases he : s.isEpsilon with
      | true =>
          -- A marker is the factor one, and no variant has it.
          rw [variants_of_isEpsilon nullable s rest he, Symbol.language_of_isEpsilon _ s he,
            one_mul]
      | false =>
          cases hn : s.isNullable nullable with
          | true =>
              -- Keeping and dropping the occurrence are the two summands.
              rw [variants_of_isNullable nullable s rest he hn,
                Symbol.language_withEmptyWord_of_isNullable nullable I s hn, List.map_append,
                List.sum_append, sum_map_language_cons, add_mul, one_mul]
          | false =>
              rw [variants_of_not_isNullable nullable s rest he hn,
                Symbol.language_withEmptyWord_of_not_isNullable nullable I s hn,
                sum_map_language_cons]

theorem mem_language_withEmptyWord (nullable : List Variable) (I : Interpretation) (body : Body)
    (w : List Terminal) : w ∈ body.language (withEmptyWord nullable I) ↔
      ∃ variant ∈ body.variants nullable, w ∈ variant.language I := by
  rw [language_withEmptyWord, mem_list_sum]
  constructor
  · intro h
    rcases h with ⟨L, hL, hw⟩
    rcases List.mem_map.mp hL with ⟨variant, hv, rfl⟩
    exact ⟨variant, hv, hw⟩
  · intro h
    rcases h with ⟨variant, hv, hw⟩
    exact ⟨_, List.mem_map_of_mem hv, hw⟩

/-- A variant leaves out symbols, the markers among them. -/
theorem sublist_of_mem_variants (nullable : List Variable) (body variant : Body)
    (h : variant ∈ body.variants nullable) : variant.Sublist (body.filter (!·.isEpsilon)) := by
  induction body generalizing variant with
  | nil =>
      rw [List.mem_singleton.mp h]
      exact List.Sublist.refl _
  | cons s rest ih =>
      rcases (mem_variants_cons nullable s rest variant).mp h with
        ⟨_, hmem⟩ | ⟨hs, tail, htail, rfl⟩
      · exact (ih variant hmem).trans ((List.sublist_cons_self s rest).filter _)
      · simp only [List.filter_cons, hs, Bool.not_false, if_true]
        exact (ih tail htail).cons_cons s

theorem of_mem_variants (nullable : List Variable) (body variant : Body)
    (h : variant ∈ body.variants nullable) (s : Symbol) (hs : s ∈ variant) :
    s ∈ body ∧ s.isEpsilon = false := by
  have hmem := (sublist_of_mem_variants nullable body variant h).subset hs
  rw [List.mem_filter, Bool.not_eq_true'] at hmem
  exact hmem

theorem vanishes_of_nil_mem_variants (nullable : List Variable) (body : Body)
    (h : [] ∈ body.variants nullable) : ∀ s ∈ body, s.vanishes nullable = true := by
  induction body with
  | nil => exact fun s hs => absurd hs List.not_mem_nil
  | cons x rest ih =>
      rcases (mem_variants_cons nullable x rest []).mp h with ⟨hx, hmem⟩ | ⟨_, tail, _, hcons⟩
      · intro s hs
        rcases List.mem_cons.mp hs with rfl | hs
        · exact hx
        · exact ih hmem s hs
      · exact absurd hcons.symm (List.cons_ne_nil x tail)

theorem filter_mem_variants (nullable : List Variable) (body : Body) :
    body.filter (!·.isEpsilon) ∈ body.variants nullable := by
  induction body with
  | nil => exact List.mem_cons_self
  | cons x rest ih =>
      rw [mem_variants_cons]
      cases he : x.isEpsilon with
      | true =>
          -- Only markers are dropped.
          refine Or.inl ⟨Bool.or_eq_true_iff.mpr (Or.inl he), ?_⟩
          simpa only [List.filter_cons, he, Bool.not_true, Bool.false_eq_true, if_false] using ih
      | false =>
          refine Or.inr ⟨rfl, _, ih, ?_⟩
          simp only [List.filter_cons, he, Bool.not_false, if_true]

theorem ne_nil_of_mem_variants (nullable : List Variable) (body variant : Body)
    (h : variant ∈ body.variants nullable) (hne : variant ≠ []) : body ≠ [] := by
  rintro rfl
  exact hne (List.mem_singleton.mp h)

theorem eq_nil_of_mem_variants (nullable : List Variable) (body variant : Body)
    (hb : body.isEpsilon = true) (h : variant ∈ body.variants nullable) : variant = [] := by
  match body, hb with
  | [s], hb =>
      rw [variants_of_isEpsilon nullable s [] hb] at h
      exact List.mem_singleton.mp h

/-- A body of ordinary symbols none of which has the empty word does not have it
    either. -/
theorem nil_not_mem_language (I : Interpretation) (hI : ∀ v, [] ∉ I v) (body : Body)
    (hne : body ≠ []) (hfree : ∀ s ∈ body, s.isEpsilon = false) : [] ∉ body.language I := by
  intro hnil
  -- Its symbols would vanish though no variable is known.
  have hvan := vanishes_of_nil_mem [] I (fun v hv => absurd hv (hI v)) body hnil
  rcases List.exists_mem_of_ne_nil body hne with ⟨s, hs⟩
  have hknown := hvan s hs
  cases s with
  | terminal t =>
      rw [Symbol.vanishes_terminal] at hknown
      exact Bool.false_ne_true ((hfree _ hs).symm.trans hknown)
  | nonterminal v => exact List.not_mem_nil ((Symbol.vanishes_nonterminal [] v).mp hknown)

end Body

/-- Adding alternatives only adds words. -/
theorem Grammar.language_mono_of_alternatives (g h : Grammar)
    (hsub : ∀ v, g.alternatives v ⊆ h.alternatives v) (v : Variable) :
    g.language v ≤ h.language v :=
  g.language_le_of_closed h.language
    (fun u body hb hne => h.language_le_of_mem u body (hsub u hb) hne) v

namespace Grammar

theorem mem_expand (nullable : List Variable) (bodies : List Body) (variant : Body) :
    variant ∈ expand nullable bodies ↔
      variant ≠ [] ∧ ∃ body ∈ bodies, variant ∈ body.variants nullable := by
  simp only [expand, List.mem_eraseDups, List.mem_flatMap, List.mem_filter, Bool.not_eq_true',
    List.isEmpty_eq_false_iff]
  constructor
  · intro h
    rcases h with ⟨body, ⟨hb, _⟩, hv, hne⟩
    exact ⟨hne, body, hb, hv⟩
  · intro h
    rcases h with ⟨hne, body, hb, hv⟩
    refine ⟨body, ⟨hb, Bool.eq_false_iff.mpr fun he => hne ?_⟩, hv, hne⟩
    exact Body.eq_nil_of_mem_variants nullable body variant he hv

@[simp] theorem defined_withoutEpsilon (g : Grammar) : g.withoutEpsilon.defined = g.defined :=
  g.defined_mapAlternatives _

theorem alternatives_withoutEpsilon (g : Grammar) (v : Variable) :
    g.withoutEpsilon.alternatives v = expand g.nullable (g.alternatives v) :=
  g.alternatives_mapAlternatives_of_nil _ v rfl

/-- The alternatives of a variable are the variants of its bodies, but for the
    zero-length ones. -/
theorem mem_alternatives_withoutEpsilon (g : Grammar) (v : Variable) (variant : Body) :
    variant ∈ g.withoutEpsilon.alternatives v ↔
      variant ≠ [] ∧ ∃ body ∈ g.alternatives v, variant ∈ body.variants g.nullable := by
  rw [alternatives_withoutEpsilon, mem_expand]

theorem markerFree_withoutEpsilon (g : Grammar) (v : Variable) (body : Body)
    (hb : body ∈ g.withoutEpsilon.alternatives v) :
    body ≠ [] ∧ ∀ s ∈ body, s.isEpsilon = false := by
  rcases (g.mem_alternatives_withoutEpsilon v body).mp hb with ⟨hne, old, _, hv⟩
  exact ⟨hne, fun s hs => (Body.of_mem_variants g.nullable old body hv s hs).2⟩

theorem epsilon_not_mem_withoutEpsilon (g : Grammar) (v : Variable) :
    [.epsilon] ∉ g.withoutEpsilon.alternatives v := by
  intro hmem
  have hfree := (g.markerFree_withoutEpsilon v _ hmem).2 .epsilon List.mem_cons_self
  exact Bool.false_ne_true hfree.symm

theorem occursInBody_withoutEpsilon (g : Grammar) (v : Variable) :
    g.withoutEpsilon.occursInBody v = g.occursInBody v := by
  rw [Bool.eq_iff_iff, occursInBody_iff, occursInBody_iff]
  constructor
  · intro h
    rcases h with ⟨u, variant, hvar, hv⟩
    rcases (g.mem_alternatives_withoutEpsilon u variant).mp hvar with ⟨_, body, hb, hmem⟩
    exact ⟨u, body, hb, (Body.of_mem_variants g.nullable body variant hmem _ hv).1⟩
  · -- The variant that keeps every occurrence has the variable, too.
    intro h
    rcases h with ⟨u, body, hb, hv⟩
    have hkept : .nonterminal v ∈ body.filter (!·.isEpsilon) := List.mem_filter.mpr ⟨hv, rfl⟩
    refine ⟨u, _, (g.mem_alternatives_withoutEpsilon u _).mpr ⟨List.ne_nil_of_mem hkept, body,
      hb, Body.filter_mem_variants g.nullable body⟩, hkept⟩

theorem withEmptyWord_language (g : Grammar) :
    withEmptyWord g.nullable g.language = g.language := by
  funext v
  rw [withEmptyWord]
  split
  · -- A nullable variable has the empty word already.
    next hv => exact sup_eq_left.mpr ((one_le_iff _).mpr ((g.mem_nullable_iff v).mp hv))
  · rfl

theorem language_le_of_mem_variants (g : Grammar) (body variant : Body)
    (h : variant ∈ body.variants g.nullable) : variant.language g.language ≤
      body.language g.language := by
  intro w hw
  have hsum := (Body.mem_language_withEmptyWord g.nullable g.language body w).mpr ⟨variant, h, hw⟩
  rwa [g.withEmptyWord_language] at hsum

theorem language_withoutEpsilon_le (g : Grammar) (v : Variable) (w : List Terminal)
    (h : w ∈ g.withoutEpsilon.language v) : w ∈ g.language v ∧ w ≠ [] := by
  -- The old languages without the empty word are closed under the variants.
  let I : Interpretation := fun u => {x | x ∈ g.language u ∧ x ≠ []}
  have hI : g.withoutEpsilon.Closed I := by
    intro u variant hvar hne x hx
    rcases (g.mem_alternatives_withoutEpsilon u variant).mp hvar with ⟨_, body, hb, hv⟩
    refine ⟨?_, fun hnil => ?_⟩
    · have hle := variant.language_mono I g.language (fun _ _ _ hy => hy.1) hx
      exact g.language_le_of_mem u body hb (Body.ne_nil_of_mem_variants _ body variant hv hne)
        (g.language_le_of_mem_variants body variant hv hle)
    · have hfree := (g.markerFree_withoutEpsilon u variant hvar).2
      rw [hnil] at hx
      exact Body.nil_not_mem_language I (fun _ hy => hy.2 rfl) variant hne hfree hx
  exact g.withoutEpsilon.language_le_of_closed I hI v h

/-- With the empty word given back to the nullable variables, what the variants
    derive is closed under the bodies. -/
theorem language_le_withEmptyWord (g : Grammar) (v : Variable) :
    g.language v ≤ withEmptyWord g.nullable g.withoutEpsilon.language v := by
  refine g.language_le_of_closed _ (fun u body hb hne x hx => ?_) v
  rcases (Body.mem_language_withEmptyWord _ _ body x).mp hx with ⟨variant, hv, hx⟩
  by_cases hnil : variant = []
  · -- Everything was dropped, so the variable is nullable.
    rw [hnil] at hv hx
    have hvan := Body.vanishes_of_nil_mem_variants g.nullable body hv
    have hu := g.mem_nullable_of_vanishes u body hb ((Body.vanishes_iff _ body).mpr ⟨hne, hvan⟩)
    rw [withEmptyWord, if_pos hu]
    exact Or.inr hx
  · have hmem := (g.mem_alternatives_withoutEpsilon u variant).mpr ⟨hnil, body, hb, hv⟩
    have hword := g.withoutEpsilon.language_le_of_mem u variant hmem hnil hx
    rw [withEmptyWord]
    split
    · exact Or.inl hword
    · exact hword

/-- The variants derive what the bodies derived, but for the empty word. -/
theorem mem_language_withoutEpsilon (g : Grammar) (v : Variable) (w : List Terminal) :
    w ∈ g.withoutEpsilon.language v ↔ w ∈ g.language v ∧ w ≠ [] := by
  constructor
  · exact g.language_withoutEpsilon_le v w
  · intro hx
    rcases hx with ⟨hw, hne⟩
    have h := g.language_le_withEmptyWord v hw
    rw [withEmptyWord] at h
    split at h
    · exact ((Language.mem_add _ _ w).mp h).resolve_right hne
    · exact h

theorem mem_alternatives_pushUnique (g : Grammar) (v u : Variable) (body b : Body) :
    b ∈ (g.pushUnique v body).alternatives u ↔ b ∈ g.alternatives u ∨ u = v ∧ b = body := by
  by_cases hu : u = v
  · by_cases hmem : body ∈ g.alternatives v
    · simp only [alternatives_pushUnique, hu, if_true, pushBody, hmem, true_and]
      exact ⟨Or.inl, fun h => h.elim id fun e => e ▸ hmem⟩
    · simp [hu, pushBody, hmem]
  · simp [hu]

/-- An empty production of a variable that occurs in no body gives that variable
    the empty word and changes nothing else. -/
theorem mem_language_pushUnique_epsilon (g : Grammar) (start : Variable)
    (hidden : g.occursInBody start = false) (v : Variable) (w : List Terminal) :
    w ∈ (g.pushUnique start [.epsilon]).language v ↔
      w ∈ g.language v ∨ v = start ∧ w = [] := by
  have hlang : ∀ I : Interpretation, Body.language I [.epsilon] = 1 := fun I =>
    (Body.language_singleton I _).trans (Symbol.language_of_isEpsilon I _ rfl)
  constructor
  · -- The languages with the empty word added for the start symbol stay closed.
    let I : Interpretation := fun u => {x | x ∈ g.language u ∨ u = start ∧ x = []}
    have hI : (g.pushUnique start [.epsilon]).Closed I := by
      intro u body hb hne x hx
      rcases (g.mem_alternatives_pushUnique start u [.epsilon] body).mp hb with hold | ⟨hu, rfl⟩
      · -- The start symbol is not among the variables of the body.
        refine Or.inl (g.language_le_of_mem u body hold hne ?_)
        refine body.language_mono I g.language (fun y hy z hz => hz.resolve_right ?_) hx
        intro hall
        rcases hall with ⟨rfl, _⟩
        exact (g.occursInBody_eq_false_iff y).mp hidden u body hold hy
      · rw [hlang] at hx
        exact Or.inr ⟨hu, hx⟩
    exact fun h => Grammar.language_le_of_closed _ I hI v h
  · intro hall
    rcases hall with hw | ⟨rfl, rfl⟩
    · refine g.language_mono_of_alternatives _ (fun u b hb => ?_) v hw
      exact (g.mem_alternatives_pushUnique start u [.epsilon] b).mpr (Or.inl hb)
    · have hmem := (g.mem_alternatives_pushUnique v v [.epsilon] [.epsilon]).mpr
        (Or.inr ⟨rfl, rfl⟩)
      have hle := Grammar.language_le_of_mem _ v [.epsilon] hmem (List.cons_ne_nil _ _)
      rw [hlang] at hle
      exact (one_le_iff _).mp hle

theorem occursInBody_pushUnique_epsilon (g : Grammar) (start v : Variable) :
    (g.pushUnique start [.epsilon]).occursInBody v = g.occursInBody v := by
  rw [Bool.eq_iff_iff, occursInBody_iff, occursInBody_iff]
  simp only [mem_alternatives_pushUnique]
  constructor
  · intro h
    rcases h with ⟨u, body, hb | ⟨_, rfl⟩, hv⟩
    · exact ⟨u, body, hb, hv⟩
    · exact absurd (List.mem_singleton.mp hv) (fun e => Symbol.noConfusion e)
  · intro h
    rcases h with ⟨u, body, hb, hv⟩
    exact ⟨u, body, Or.inl hb, hv⟩

theorem retainsEpsilon_iff (g : Grammar) (start : Variable) (keep : Bool) :
    g.retainsEpsilon start keep = true ↔
      keep = true ∧ [] ∈ g.language start ∧ g.occursInBody start = false := by
  simp only [retainsEpsilon, Bool.and_eq_true, List.contains_iff_mem, Bool.not_eq_true',
    occursInBody_withoutEpsilon, mem_nullable_iff, and_assoc]

/-- When the stage does not fail, it returns the variants, with the empty
    production of the start symbol where that is retained. -/
theorem eq_of_eliminateEpsilon (g r : Grammar) (start : Variable) (keep : Bool) (limit : Nat)
    (h : g.eliminateEpsilon start keep limit = .ok r) :
    r = if g.retainsEpsilon start keep then g.withoutEpsilon.pushUnique start [.epsilon]
      else g.withoutEpsilon := by
  rw [eliminateEpsilon] at h
  split at h
  · exact absurd h (by simp only [reduceCtorEq, not_false_eq_true])
  · exact (Except.ok.inj h).symm

/-- The start symbol that retains its empty production is in the grammar already. -/
theorem defined_of_eliminateEpsilon (g r : Grammar) (start : Variable) (keep : Bool)
    (limit : Nat) (h : g.eliminateEpsilon start keep limit = .ok r) : r.defined = g.defined := by
  have hdef := g.defined_withoutEpsilon
  rw [g.eq_of_eliminateEpsilon r start keep limit h]
  split
  · next hk =>
      -- It derives the empty word, so it has an alternative.
      have hnull := ((g.retainsEpsilon_iff start keep).mp hk).2.1
      rcases (g.mem_language_iff start []).mp hnull with ⟨body, hb, _⟩
      simp [g.mem_defined_of_mem_alternatives start body hb]
  · exact hdef

theorem mem_defined_of_eliminateEpsilon (g r : Grammar) (start : Variable) (keep : Bool)
    (limit : Nat) (h : g.eliminateEpsilon start keep limit = .ok r) (v : Variable)
    (hv : v ∈ g.defined) : v ∈ r.defined := by
  rw [g.defined_of_eliminateEpsilon r start keep limit h]
  exact hv

theorem occursInBody_of_eliminateEpsilon (g r : Grammar) (start : Variable) (keep : Bool)
    (limit : Nat) (h : g.eliminateEpsilon start keep limit = .ok r) (v : Variable) :
    r.occursInBody v = g.occursInBody v := by
  rw [g.eq_of_eliminateEpsilon r start keep limit h, ← g.occursInBody_withoutEpsilon v]
  split
  · exact g.withoutEpsilon.occursInBody_pushUnique_epsilon start v
  · rfl

theorem alternatives_of_eliminateEpsilon (g r : Grammar) (start : Variable) (keep : Bool)
    (limit : Nat) (h : g.eliminateEpsilon start keep limit = .ok r) (v : Variable) :
    r.alternatives v = g.withoutEpsilon.alternatives v ++
      if v = start ∧ g.retainsEpsilon start keep = true then [[.epsilon]] else [] := by
  rw [g.eq_of_eliminateEpsilon r start keep limit h]
  by_cases hv : v = start
  · -- A variant is no `[ε]`, so the production is new.
    by_cases hk : g.retainsEpsilon start keep = true <;>
      simp [hk, hv, pushBody, g.epsilon_not_mem_withoutEpsilon start]
  · by_cases hk : g.retainsEpsilon start keep = true <;> simp [hk, hv]

/-- The stage takes the empty word from every language, but for that of a start
    symbol which retains it. -/
theorem mem_language_of_eliminateEpsilon (g r : Grammar) (start : Variable) (keep : Bool)
    (limit : Nat) (h : g.eliminateEpsilon start keep limit = .ok r) (v : Variable)
    (w : List Terminal) : w ∈ r.language v ↔
      w ∈ g.language v ∧ (w ≠ [] ∨ v = start ∧ g.retainsEpsilon start keep = true) := by
  rw [g.eq_of_eliminateEpsilon r start keep limit h]
  by_cases hk : g.retainsEpsilon start keep = true
  · rcases (g.retainsEpsilon_iff start keep).mp hk with ⟨_, hnull, hidden⟩
    rw [← occursInBody_withoutEpsilon] at hidden
    rw [if_pos hk, mem_language_pushUnique_epsilon _ _ hidden, mem_language_withoutEpsilon]
    constructor
    · intro hx
      rcases hx with ⟨hw, hne⟩ | ⟨rfl, rfl⟩
      · exact ⟨hw, Or.inl hne⟩
      · exact ⟨hnull, Or.inr ⟨rfl, hk⟩⟩
    · intro hx
      rcases hx with ⟨hw, hne | ⟨hv, _⟩⟩
      · exact Or.inl ⟨hw, hne⟩
      · by_cases hne : w = []
        · exact Or.inr ⟨hv, hne⟩
        · exact Or.inl ⟨hw, hne⟩
  · -- Nothing is given back to the start symbol.
    rw [if_neg hk, mem_language_withoutEpsilon]
    simp only [hk, Bool.false_eq_true, and_false, or_false]

theorem count_epsilon_of_eliminateEpsilon (g r : Grammar) (start : Variable) (keep : Bool)
    (limit : Nat) (h : g.eliminateEpsilon start keep limit = .ok r) (v : Variable) :
    (r.alternatives v).count [.epsilon] =
      if v = start ∧ g.retainsEpsilon start keep = true then 1 else 0 := by
  have hnone : (g.withoutEpsilon.alternatives v).count [.epsilon] = 0 :=
    List.count_eq_zero.mpr (g.epsilon_not_mem_withoutEpsilon v)
  rw [g.alternatives_of_eliminateEpsilon r start keep limit h v, List.count_append, hnone]
  split
  · rfl
  · rfl

theorem markerFree_of_eliminateEpsilon (g r : Grammar) (start : Variable) (keep : Bool)
    (limit : Nat) (h : g.eliminateEpsilon start keep limit = .ok r) (v : Variable) (body : Body)
    (hb : body ∈ r.alternatives v) (hne : body ≠ [.epsilon]) :
    body ≠ [] ∧ ∀ s ∈ body, s.isEpsilon = false := by
  rw [g.alternatives_of_eliminateEpsilon r start keep limit h v, List.mem_append] at hb
  rcases hb with hb | hb
  · exact g.markerFree_withoutEpsilon v body hb
  · split at hb
    · exact absurd (List.mem_singleton.mp hb) hne
    · exact absurd hb List.not_mem_nil

/-- Removing empty productions takes the empty word from the language of every
    variable. Only the start symbol keeps it, and it does so exactly if that is
    asked for, the start symbol is nullable and it occurs in no body. The body
    `[ε]` that it has then is the only one that is zero-length or holds a
    marker. -/
theorem language_eliminateEpsilon (g r : Grammar) (start : Variable) (keep : Bool) (limit : Nat)
    (h : g.eliminateEpsilon start keep limit = .ok r) :
    (∀ v w, w ∈ r.language v ↔ w ∈ g.language v ∧ (w ≠ [] ∨
      v = start ∧ keep = true ∧ [] ∈ g.language start ∧ r.occursInBody start = false)) ∧
    ([] ∈ r.language start ↔
      keep = true ∧ [] ∈ g.language start ∧ r.occursInBody start = false) ∧
    (∀ v, ∀ body ∈ r.alternatives v, (body ≠ [] ∧ ∀ s ∈ body, s.isEpsilon = false) ∨
      (v = start ∧ body = [.epsilon] ∧
        keep = true ∧ [] ∈ g.language start ∧ r.occursInBody start = false)) ∧
    r.bodies.count [.epsilon] ≤ 1 := by
  have hcount := g.count_epsilon_of_eliminateEpsilon r start keep limit h
  have hlang := g.mem_language_of_eliminateEpsilon r start keep limit h
  rw [g.occursInBody_of_eliminateEpsilon r start keep limit h, ← g.retainsEpsilon_iff start keep]
  refine ⟨hlang, ?_, fun v body hb => ?_, ?_⟩
  · rw [hlang]
    constructor
    · intro hx
      rcases hx with ⟨_, hne | ⟨_, hk⟩⟩
      · exact absurd rfl hne
      · exact hk
    · exact fun hk => ⟨((g.retainsEpsilon_iff start keep).mp hk).2.1, Or.inr ⟨rfl, hk⟩⟩
  · by_cases hbody : body = [.epsilon]
    · have hpos : 0 < (r.alternatives v).count [.epsilon] := List.count_pos_iff.mpr (hbody ▸ hb)
      rw [hcount] at hpos
      split at hpos
      · next hk => exact Or.inr ⟨hk.1, hbody, hk.2⟩
      · omega
    · exact Or.inl (g.markerFree_of_eliminateEpsilon r start keep limit h v body hb hbody)
  · rw [r.count_bodies start [.epsilon], hcount]
    · split
      · exact le_refl 1
      · exact Nat.zero_le 1
    · intro u hu
      rw [← List.count_eq_zero, hcount, if_neg fun hc => hu hc.1]

/-- Both variables of the only body of `S` are nullable. -/
def optionalPair : Grammar := ofRules [
  (⟨"S"⟩, [[.nonterminal ⟨"A"⟩, .nonterminal ⟨"B"⟩]]),
  (⟨"A"⟩, [[.terminal ⟨"a"⟩], [.epsilon]]),
  (⟨"B"⟩, [[.terminal ⟨"b"⟩, .epsilon], [.epsilon, .epsilon]])]

/-- `optionalPair` without empty productions but that of `S`. -/
def expandedPair : Grammar := ofRules [
  (⟨"S"⟩, [[.nonterminal ⟨"A"⟩, .nonterminal ⟨"B"⟩], [.nonterminal ⟨"A"⟩],
    [.nonterminal ⟨"B"⟩], [.epsilon]]),
  (⟨"A"⟩, [[.terminal ⟨"a"⟩]]),
  (⟨"B"⟩, [[.terminal ⟨"b"⟩]])]

theorem language_expandedPair :
    optionalPair.eliminateEpsilon ⟨"S"⟩ true 2 = .ok expandedPair ∧
      [] ∈ expandedPair.language ⟨"S"⟩ ∧ [] ∉ expandedPair.language ⟨"A"⟩ := by
  have hstage : optionalPair.eliminateEpsilon ⟨"S"⟩ true 2 = .ok expandedPair := by rfl
  have hnull : [] ∈ optionalPair.language ⟨"S"⟩ := (mem_nullable_iff _ _).mp (by decide)
  have hhidden : expandedPair.occursInBody ⟨"S"⟩ = false := by decide
  have h := language_eliminateEpsilon optionalPair expandedPair ⟨"S"⟩ true 2 hstage
  refine ⟨hstage, h.2.1.mpr ⟨rfl, hnull, hhidden⟩, fun hnil => ?_⟩
  rcases ((h.1 _ _).mp hnil).2 with hne | ⟨hstart, _⟩
  · exact hne rfl
  · exact absurd hstart (by decide)

end Grammar

end Chomsky
