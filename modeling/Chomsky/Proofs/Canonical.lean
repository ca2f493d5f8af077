import Chomsky.Proofs.Independence
import Chomsky.Source.Entry

/-!
# Canonical Bodies

A marker `ε` in a longer body stands for nothing. A reader of sources drops it, but a
grammar that was built by hand may well hold it. To the first stage the two are the
same.

The canonical form of a body has its markers dropped, where the body is more than a
marker alone. What a source denotes is canonical from the start, up to zero-length
bodies, which derive nothing and are left out here.

Whatever the first stage asks of a body is answered by its symbols other than the
markers: its variants, its words and its number of nullable occurrences. The
canonical form has the same symbols other than the markers, and so the answers are
the same. A body made of markers alone has the zero-length variant only, no matter
how many they are, and a body of zero length contributes nothing anywhere.

One thing does change. A body of several markers makes its variable nullable in a
scan, while its canonical form `[ε]` does so from the start. So the nullable
variables may be found in another order. They are the same ones all the same, being
those that derive the empty word, and their order does not reach the result.

## Main definitions

* `Body.canonical`: A body with its markers dropped.
* `Grammar.canonical`: A grammar of canonical bodies.

## Theorems

* `readAlternative_eq_canonical`: A source denotes canonical bodies.
* `withoutMarkers_canonical`: Canonical bodies have the same other symbols.
* `language_canonical`: Every variable derives the same words.
* `excess_canonical`: The same body exceeds the limit.
* `withoutEpsilon_canonical`: The variants are the same.
* `eliminateEpsilon_canonical`: So is the outcome of the first stage.
-/

namespace Chomsky

namespace Body

/-- The symbols of a body other than the markers. -/
def withoutMarkers (body : Body) : Body := body.filter (!·.isEpsilon)

/-- A body of more than one symbol with its markers dropped, or `[ε]` where nothing
    else is left. -/
def canonical (body : Body) : Body :=
  if body.length ≤ 1 then body
  else if body.withoutMarkers.isEmpty then [.epsilon]
  else body.withoutMarkers

theorem withoutMarkers_of_isEpsilon (s : Symbol) (rest : Body) (h : s.isEpsilon = true) :
    withoutMarkers (s :: rest) = rest.withoutMarkers := by
  refine List.filter_cons_of_neg ?_
  rw [h]
  exact Bool.false_ne_true

theorem withoutMarkers_of_not_isEpsilon (s : Symbol) (rest : Body) (h : s.isEpsilon = false) :
    withoutMarkers (s :: rest) = s :: rest.withoutMarkers := by
  refine List.filter_cons_of_pos ?_
  rw [h]
  rfl

theorem withoutMarkers_canonical (body : Body) :
    body.canonical.withoutMarkers = body.withoutMarkers := by
  unfold canonical
  split
  · rfl
  · split
    · next hnone =>
        rw [List.isEmpty_iff.mp hnone]
        rfl
    · -- No marker is left to be dropped.
      exact List.filter_eq_self.mpr fun s hs => (List.mem_filter.mp hs).2

theorem canonical_ne_nil (body : Body) (h : body ≠ []) : body.canonical ≠ [] := by
  unfold canonical
  split
  · exact h
  · split
    · exact List.cons_ne_nil _ _
    · next hsome => exact fun e => hsome (List.isEmpty_iff.mpr e)

/-- A body with other symbols than markers has just these in its canonical form. One
    without is `[ε]` there, if it is a body at all. -/
theorem canonical_eq (body : Body) : body.canonical =
    if body.withoutMarkers.isEmpty && !body.isEmpty then [.epsilon] else body.withoutMarkers := by
  rcases body with _ | ⟨s, _ | ⟨x, rest⟩⟩
  · rfl
  · -- A single symbol is kept, and if it is a marker it is `[ε]`.
    have hshort : [s].length ≤ 1 := Nat.le_refl 1
    rw [canonical, if_pos hshort]
    cases hs : s.isEpsilon with
    | true =>
        rw [withoutMarkers_of_isEpsilon s [] hs]
        exact (isEpsilon_iff [s]).mp hs
    | false =>
        rw [withoutMarkers_of_not_isEpsilon s [] hs]
        rfl
  · have hlong : ¬ (s :: x :: rest).length ≤ 1 := by
      simp only [List.length_cons]
      omega
    rw [canonical, if_neg hlong]
    simp only [List.isEmpty_cons, Bool.not_false, Bool.and_true]

theorem variants_withoutMarkers (nullable : List Variable) (body : Body) :
    body.withoutMarkers.variants nullable = body.variants nullable := by
  -- A marker is never kept in a variant, so leaving it out beforehand is no different.
  induction body with
  | nil => rfl
  | cons s rest ih =>
      cases hs : s.isEpsilon with
      | true => rw [withoutMarkers_of_isEpsilon s rest hs, ih, variants_of_isEpsilon _ s rest hs]
      | false => rw [withoutMarkers_of_not_isEpsilon s rest hs, variants, variants, ih]

theorem language_withoutMarkers (I : Interpretation) (body : Body) :
    body.withoutMarkers.language I = body.language I := by
  induction body with
  | nil => rfl
  | cons s rest ih =>
      cases hs : s.isEpsilon with
      | true =>
          rw [withoutMarkers_of_isEpsilon s rest hs, ih, language_cons,
            Symbol.language_of_isEpsilon I s hs, one_mul]
      | false =>
          rw [withoutMarkers_of_not_isEpsilon s rest hs, language_cons, ih, language_cons]

theorem nullableCount_withoutMarkers (nullable : List Variable) (body : Body) :
    body.withoutMarkers.nullableCount nullable = body.nullableCount nullable := by
  induction body with
  | nil => rfl
  | cons s rest ih =>
      cases hs : s.isEpsilon with
      | true =>
          rw [withoutMarkers_of_isEpsilon s rest hs, ih,
            nullableCount_of_isEpsilon nullable s rest hs]
      | false =>
          rw [nullableCount] at ih
          rw [withoutMarkers_of_not_isEpsilon s rest hs, nullableCount, List.countP_cons, ih,
            nullableCount, nullableCount, List.countP_cons]

/-- Whatever overlooks markers cannot tell a body from its canonical form. -/
theorem apply_canonical {α : Type} (f : Body → α) (hf : ∀ body, f body.withoutMarkers = f body)
    (body : Body) : f body.canonical = f body := by
  rw [← hf body.canonical, withoutMarkers_canonical, hf]

theorem variants_canonical (nullable : List Variable) (body : Body) :
    body.canonical.variants nullable = body.variants nullable :=
  apply_canonical (variants nullable) (variants_withoutMarkers nullable) body

theorem language_canonical (I : Interpretation) (body : Body) :
    body.canonical.language I = body.language I :=
  apply_canonical (language I) (language_withoutMarkers I) body

theorem nullableCount_canonical (nullable : List Variable) (body : Body) :
    body.canonical.nullableCount nullable = body.nullableCount nullable :=
  apply_canonical (nullableCount nullable) (nullableCount_withoutMarkers nullable) body

end Body

theorem Symbol.isEpsilon_classify (c : Char) : (classify c).isEpsilon = (c == epsilonMark) := by
  unfold classify
  split
  · next hupper =>
      have hne : c ≠ epsilonMark := by
        rintro rfl
        exact absurd hupper (by decide)
      rw [beq_false_of_ne hne]
      rfl
  · by_cases hc : c = epsilonMark
    · rw [hc, beq_self_eq_true]
      rfl
    · have hterm : (⟨String.singleton c⟩ : Terminal) ≠ .epsilon := by
        intro he
        have hlist := congrArg (fun t => t.content.toList) he
        simp only [Terminal.epsilon, String.toList_singleton, List.cons.injEq, and_true] at hlist
        exact hc hlist
      rw [beq_false_of_ne hc]
      exact beq_false_of_ne hterm

/-- Dropping the markers of a text and of the body that it spells comes to the same. -/
theorem Body.withoutMarkers_classify (cs : List Char) :
    Body.withoutMarkers (cs.map Symbol.classify) =
      (cs.filter (· != epsilonMark)).map Symbol.classify := by
  rw [Body.withoutMarkers, List.filter_map]
  refine congrArg (List.map Symbol.classify) (List.filter_congr fun c _ => ?_)
  rw [Function.comp_apply, Symbol.isEpsilon_classify]
  rfl

/-- A text of markers alone has one unless it is empty. -/
theorem contains_epsilonMark_of_filter_eq_nil (cs : List Char)
    (h : cs.filter (· != epsilonMark) = []) : cs.contains epsilonMark = !cs.isEmpty := by
  cases cs with
  | nil => rfl
  | cons c rest =>
      rw [List.filter_eq_nil_iff] at h
      have hfirst := h c List.mem_cons_self
      rw [bne_iff_ne, not_not] at hfirst
      rw [hfirst]
      simp only [List.contains_cons, beq_self_eq_true, Bool.true_or, List.isEmpty_cons,
        Bool.not_false]

/-- The body that an alternative of a source denotes is the canonical form of its
    characters, blanks at the ends aside. -/
theorem readAlternative_eq_canonical (text : String) :
    readAlternative text = Body.canonical ((trim text.toList).map Symbol.classify) := by
  rw [Body.canonical_eq, Body.withoutMarkers_classify, readAlternative]
  generalize trim text.toList = cs
  simp only [List.isEmpty_map]
  by_cases hnone : cs.filter (· != epsilonMark) = []
  · rw [contains_epsilonMark_of_filter_eq_nil cs hnone]
  · have hsome : (cs.filter (· != epsilonMark)).isEmpty = false := List.isEmpty_eq_false_iff.mpr hnone
    rw [hsome, Bool.false_and, Bool.false_and]

namespace Grammar

/-- The canonical forms of the bodies of a list, the zero-length ones apart. -/
def canonicalBodies (bodies : List Body) : List Body :=
  (bodies.filter (!·.isEmpty)).map Body.canonical

/-- A grammar with its bodies in canonical form and without those of zero length. -/
def canonical (g : Grammar) : Grammar := g.mapAlternatives fun _ bodies => canonicalBodies bodies

theorem canonicalBodies_cons (body : Body) (rest : List Body) :
    canonicalBodies (body :: rest) =
      if body = [] then canonicalBodies rest else body.canonical :: canonicalBodies rest := by
  cases body with
  | nil => rfl
  | cons s tail => rfl

theorem mem_canonicalBodies (bodies : List Body) (b : Body) :
    b ∈ canonicalBodies bodies ↔ ∃ body ∈ bodies, body ≠ [] ∧ body.canonical = b := by
  simp only [canonicalBodies, List.mem_map, List.mem_filter, Bool.not_eq_true',
    List.isEmpty_eq_false_iff, and_assoc]

/-- A function that has nothing to say about zero-length bodies and does not look at
    markers overlooks what canonical bodies leave out. -/
theorem flatMap_canonicalBodies {α : Type} (f : Body → List α) (hnil : f [] = [])
    (hf : ∀ body, f body.canonical = f body) (bodies : List Body) :
    (canonicalBodies bodies).flatMap f = bodies.flatMap f := by
  induction bodies with
  | nil => rfl
  | cons body rest ih =>
      rw [canonicalBodies_cons, List.flatMap_cons, ← ih]
      by_cases hb : body = []
      · rw [if_pos hb, hb, hnil, List.nil_append]
      · rw [if_neg hb, List.flatMap_cons, hf]

@[simp] theorem defined_canonical (g : Grammar) : g.canonical.defined = g.defined :=
  g.defined_mapAlternatives _

theorem alternatives_canonical (g : Grammar) (v : Variable) :
    g.canonical.alternatives v = canonicalBodies (g.alternatives v) :=
  g.alternatives_mapAlternatives_of_nil _ v rfl

theorem closed_canonical_iff (g : Grammar) (I : Interpretation) :
    g.canonical.Closed I ↔ g.Closed I := by
  constructor
  · -- A body of zero length has no canonical form, but closure does not ask about it.
    intro hI v body hb hne
    have hmem : body.canonical ∈ g.canonical.alternatives v := by
      rw [alternatives_canonical, mem_canonicalBodies]
      exact ⟨body, hb, hne, rfl⟩
    rw [← Body.language_canonical]
    exact hI v body.canonical hmem (body.canonical_ne_nil hne)
  · intro hI v b hb _
    rw [alternatives_canonical, mem_canonicalBodies] at hb
    rcases hb with ⟨body, hbody, hne, rfl⟩
    rw [Body.language_canonical]
    exact hI v body hbody hne

/-- Every variable derives the same words from canonical bodies. -/
theorem language_canonical (g : Grammar) (v : Variable) : g.canonical.language v = g.language v := by
  refine le_antisymm ?_ ?_
  · exact g.canonical.language_le_of_closed _ ((g.closed_canonical_iff _).mpr g.closed_language) v
  · exact g.language_le_of_closed _ ((g.closed_canonical_iff _).mp g.canonical.closed_language) v

theorem mem_nullable_canonical (g : Grammar) (v : Variable) :
    v ∈ g.canonical.nullable ↔ v ∈ g.nullable := by
  rw [mem_nullable_iff, mem_nullable_iff, language_canonical]

end Grammar

/-- In which order the nullable variables are listed makes no difference. -/
theorem Symbol.isNullable_congr (known other : List Variable) (h : ∀ v, v ∈ known ↔ v ∈ other) :
    Symbol.isNullable known = Symbol.isNullable other := by
  funext s
  cases s with
  | terminal t => rfl
  | nonterminal v =>
      rw [Bool.eq_iff_iff, Symbol.isNullable, Symbol.isNullable, List.contains_iff_mem,
        List.contains_iff_mem]
      exact h v

theorem Body.variants_congr (known other : List Variable) (h : ∀ v, v ∈ known ↔ v ∈ other)
    (body : Body) : body.variants known = body.variants other := by
  induction body with
  | nil => rfl
  | cons s rest ih => rw [variants, variants, ih, Symbol.isNullable_congr known other h]

namespace Grammar

theorem expand_congr (known other : List Variable) (h : ∀ v, v ∈ known ↔ v ∈ other)
    (bodies : List Body) : expand known bodies = expand other bodies := by
  simp only [expand, Body.variants_congr known other h]

theorem expand_canonicalBodies (nullable : List Variable) (bodies : List Body) :
    expand nullable (canonicalBodies bodies) = expand nullable bodies := by
  let f : Body → List Body := fun body => (body.variants nullable).filter (!·.isEmpty)
  -- The empty production has only the zero-length variant, so it need not be singled out.
  have hall : ∀ list : List Body, expand nullable list = (list.flatMap f).eraseDups := fun list =>
    congrArg List.eraseDups (flatMap_nonEpsilons f rfl list)
  have hsame : ∀ body : Body, f body.canonical = f body := fun body =>
    congrArg (List.filter (!·.isEmpty)) (body.variants_canonical nullable)
  rw [hall, hall, flatMap_canonicalBodies f rfl hsame]

/-- The variants of canonical bodies are those of the bodies they came from. -/
theorem withoutEpsilon_canonical (g : Grammar) : g.canonical.withoutEpsilon = g.withoutEpsilon := by
  refine eq_of_alternatives _ _ ?_ fun v _ => ?_
  · simp
  · rw [alternatives_withoutEpsilon, alternatives_withoutEpsilon, alternatives_canonical,
      expand_canonicalBodies, expand_congr _ _ g.mem_nullable_canonical]

theorem ruleExcess_canonicalBodies (nullable : List Variable) (limit : Nat) (v : Variable)
    (bodies : List Body) :
    ruleExcess nullable limit (v, canonicalBodies bodies) = ruleExcess nullable limit (v, bodies) := by
  let exceeds : Body → Bool := fun body => decide (limit < body.nullableCount nullable)
  let report : Body → TooComplex := fun body => ⟨v, body.nullableCount nullable, limit⟩
  have hexceeds : ∀ body : Body, exceeds body.canonical = exceeds body := fun body =>
    congrArg (fun n => decide (limit < n)) (body.nullableCount_canonical nullable)
  have hreport : ∀ body : Body, report body.canonical = report body := fun body =>
    congrArg (fun n => (⟨v, n, limit⟩ : TooComplex)) (body.nullableCount_canonical nullable)
  show ((canonicalBodies bodies).find? exceeds).map report = (bodies.find? exceeds).map report
  induction bodies with
  | nil => rfl
  | cons body rest ih =>
      rw [canonicalBodies_cons, List.find?_cons]
      by_cases hb : body = []
      · -- A zero-length body has no occurrences and keeps every limit.
        have hnone : exceeds [] = false := decide_eq_false (Nat.not_lt_zero limit)
        rw [if_pos hb, hb, hnone, ih]
      · rw [if_neg hb, List.find?_cons, hexceeds]
        cases exceeds body with
        | true => exact congrArg some (hreport body)
        | false => exact ih

theorem ruleExcess_congr (known other : List Variable) (h : ∀ v, v ∈ known ↔ v ∈ other)
    (limit : Nat) : ruleExcess known limit = ruleExcess other limit := by
  have hcount : Body.nullableCount known = Body.nullableCount other := by
    funext body
    rw [Body.nullableCount, Symbol.isNullable_congr known other h, Body.nullableCount]
  funext r
  rw [ruleExcess, hcount, ruleExcess]

/-- The first body over the limit is found for the same variable and with the same
    count. -/
theorem excess_canonical (g : Grammar) (limit : Nat) : g.canonical.excess limit = g.excess limit := by
  have hrules : g.canonical.rules = g.rules.map fun r => (r.1, canonicalBodies r.2) := rfl
  have hrule : (ruleExcess g.nullable limit ∘ fun r : Rule => (r.1, canonicalBodies r.2)) =
      ruleExcess g.nullable limit := by
    funext r
    exact ruleExcess_canonicalBodies g.nullable limit r.1 r.2
  rw [excess, ruleExcess_congr _ _ g.mem_nullable_canonical, hrules, List.findSome?_map, hrule, excess]

theorem retainsEpsilon_canonical (g : Grammar) (start : Variable) (keep : Bool) :
    g.canonical.retainsEpsilon start keep = g.retainsEpsilon start keep := by
  have hstart : g.canonical.nullable.contains start = g.nullable.contains start := by
    rw [Bool.eq_iff_iff, List.contains_iff_mem, List.contains_iff_mem]
    exact g.mem_nullable_canonical start
  rw [retainsEpsilon, hstart, withoutEpsilon_canonical, retainsEpsilon]

/-- The first stage treats a grammar like the one with canonical bodies, in which
    markers are dropped the way a reader of sources drops them and bodies of zero
    length are left out. The nullable variables are the same, and so is the outcome,
    be it a grammar, with its order, or an error. -/
theorem eliminateEpsilon_canonical (g : Grammar) :
    (∀ text, readAlternative text = Body.canonical ((trim text.toList).map Symbol.classify)) ∧
    (∀ v, v ∈ g.canonical.nullable ↔ v ∈ g.nullable) ∧
    ∀ start keep limit,
      g.canonical.eliminateEpsilon start keep limit = g.eliminateEpsilon start keep limit := by
  refine ⟨readAlternative_eq_canonical, g.mem_nullable_canonical, fun start keep limit => ?_⟩
  rw [eliminateEpsilon, excess_canonical, retainsEpsilon_canonical, withoutEpsilon_canonical,
    eliminateEpsilon]

end Grammar

end Chomsky
