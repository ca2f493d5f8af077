import Chomsky.Proofs.Edits
import Chomsky.Proofs.Epsilon
import Chomsky.Proofs.Redefinition
import Chomsky.Proofs.UnitPairs

/-!
# The Limit on Nullable Occurrences

When the removal of empty productions fails, and what its failure says.

The stage is a loop. It visits the productions in the order of the rules, passes over
`[ε]`, stops with a report at a body that has too many nullable occurrences, and puts
the variants of every other body into the grammar it builds. So a report comes with a
grammar half built, and whether there is a report does not depend on that grammar. A
loop like that can be told in two parts. Its report is the one for the first production
over the limit, and without such a production its outcome is that of the same loop
without the check. That `[ε]` is passed over before the check makes no difference, as
it has no variable at all.

The second part does not mention the limit any more. The variants of a rule are pushed
one by one onto the alternatives of its variable, which start out empty, so that the
rule ends up with all of them in order and without repetitions.

It follows that the limit decides about failure and about nothing else. Where the stage
succeeds, it does so under every larger limit, and always with the same grammar.

## Main definitions

* `reportOr`: A result, unless there is something to report.
* `Grammar.productions`: All productions in the order of the rules.
* `Grammar.report`: What is to be reported about a production.
* `Grammar.visitBody`, `Grammar.visitRule`, `Grammar.rebuild`: The loop.
* `Grammar.pushVariants`, `Grammar.pushRule`: The same without the check.

## Theorems

* `foldlM_reportOr`: A loop whose checks do not depend on what it builds.
* `excess_eq_some_iff`, `excess_eq_none_iff`: The first production over the limit.
* `rules_foldl_pushRule`: What the loop builds without the check.
* `rebuild_eq`: The loop reports that production, or it builds the variants.
* `eliminateEpsilon_fails_iff`: The limit decides about failure only.
-/

namespace Chomsky

/-- A result, unless there is something to report. -/
def reportOr {ε α : Type} (report : Option ε) (result : α) : Except ε α :=
  match report with
  | some e => .error e
  | none => .ok result

section ReportOr

variable {ε α β : Type}

theorem reportOr_eq_error_iff (report : Option ε) (result : α) (e : ε) :
    reportOr report result = .error e ↔ report = some e := by
  cases report with
  | none => simp only [reportOr, reduceCtorEq]
  | some e' => simp only [reportOr, Except.error.injEq, Option.some.injEq]

theorem reportOr_eq_ok_iff (report : Option ε) (result r : α) :
    reportOr report result = .ok r ↔ report = none ∧ result = r := by
  cases report with
  | none => simp only [reportOr, Except.ok.injEq, true_and]
  | some e' => simp only [reportOr, reduceCtorEq, false_and]

theorem map_reportOr (f : α → β) (report : Option ε) (result : α) :
    (reportOr report result).map f = reportOr report (f result) := by
  cases report with
  | none => rfl
  | some e => rfl

/-- A loop that stops at a report, where no report depends on what the loop has built so
    far: it gives the first report, or else what it builds without looking. -/
theorem foldlM_reportOr (check : α → Option ε) (build : β → α → β) (round : β → α → Except ε β)
    (hround : ∀ built x, round built x = reportOr (check x) (build built x)) (xs : List α)
    (built : β) :
    xs.foldlM round built = reportOr (xs.findSome? check) (xs.foldl build built) := by
  induction xs generalizing built with
  | nil => rfl
  | cons x rest ih =>
      rw [List.foldlM_cons, hround, List.findSome?_cons]
      cases check x with
      | some e =>
          -- Nothing behind the report is looked at.
          rfl
      | none => exact ih (build built x)

end ReportOr

theorem findSome?_flatMap {α β γ : Type} (xs : List α) (f : α → List β) (p : β → Option γ) :
    (xs.flatMap f).findSome? p = xs.findSome? fun x => (f x).findSome? p := by
  induction xs with
  | nil => rfl
  | cons x rest ih =>
      rw [List.flatMap_cons, List.findSome?_append, ih, List.findSome?_cons]
      cases (f x).findSome? p with
      | some y => rfl
      | none => rfl

/-- What is pushed onto nothing ends up there once. -/
theorem pushNew_nil {α : Type} [BEq α] [LawfulBEq α] (xs : List α) :
    pushNew [] xs = xs.eraseDups := by
  induction xs using List.reverseRecOn with
  | nil => rfl
  | append_singleton xs x ih =>
      rw [pushNew_append, ih, eraseDups_concat, pushNew, pushNew]
      by_cases hx : x ∈ xs
      · rw [if_pos hx, if_pos (List.contains_iff_mem.mpr (List.mem_eraseDups.mpr hx))]
      · rw [if_neg hx, if_neg fun h => hx (List.mem_eraseDups.mp (List.contains_iff_mem.mp h))]

namespace Grammar

/-- All productions, as pairs of a variable and a body, in the order of the rules. -/
def productions (g : Grammar) : List (Variable × Body) :=
  g.rules.flatMap fun r => r.2.map (r.1, ·)

theorem map_snd_productions (g : Grammar) : g.productions.map Prod.snd = g.bodies := by
  rw [productions, List.map_flatMap, bodies]
  refine List.flatMap_congr fun r _ => ?_
  rw [List.map_map]
  exact List.map_id r.2

/-- What is to be reported about a production. -/
def report (nullable : List Variable) (limit : Nat) (p : Variable × Body) : Option TooComplex :=
  if limit < p.2.nullableCount nullable then some ⟨p.1, p.2.nullableCount nullable, limit⟩
  else none

theorem report_eq_some_iff (nullable : List Variable) (limit : Nat) (p : Variable × Body)
    (e : TooComplex) : report nullable limit p = some e ↔
      limit < p.2.nullableCount nullable ∧ e = ⟨p.1, p.2.nullableCount nullable, limit⟩ := by
  rw [report, Option.ite_none_right_eq_some, Option.some.injEq, eq_comm (b := e)]

theorem report_eq_none_iff (nullable : List Variable) (limit : Nat) (p : Variable × Body) :
    report nullable limit p = none ↔ p.2.nullableCount nullable ≤ limit := by
  rw [report, ite_eq_right_iff, Nat.not_lt.symm]
  simp only [reduceCtorEq, imp_false]

theorem ruleExcess_eq (nullable : List Variable) (limit : Nat) (v : Variable)
    (bodies : List Body) : ruleExcess nullable limit (v, bodies) =
      bodies.findSome? fun body => report nullable limit (v, body) := by
  induction bodies with
  | nil => rfl
  | cons body rest ih =>
      rw [List.findSome?_cons, ← ih, ruleExcess, ruleExcess, List.find?_cons]
      by_cases h : limit < body.nullableCount nullable
      · simp only [report, if_pos h, decide_eq_true h, Option.map_some]
      · simp only [report, if_neg h, decide_eq_false h]

/-- The report of the whole grammar is the one about its first production that has
    something to report. -/
theorem excess_eq (g : Grammar) (limit : Nat) :
    g.excess limit = g.productions.findSome? (report g.nullable limit) := by
  have hrule : ruleExcess g.nullable limit = fun r =>
      (r.2.map (r.1, ·)).findSome? (report g.nullable limit) := by
    funext r
    rw [ruleExcess_eq g.nullable limit r.1 r.2, List.findSome?_map]
    rfl
  rw [excess, hrule, productions, findSome?_flatMap]

theorem excess_eq_some_iff (g : Grammar) (limit : Nat) (e : TooComplex) :
    g.excess limit = some e ↔
      ∃ front v body back, g.productions = front ++ (v, body) :: back ∧
        (∀ p ∈ front, p.2.nullableCount g.nullable ≤ limit) ∧
        limit < body.nullableCount g.nullable ∧
        e = ⟨v, body.nullableCount g.nullable, limit⟩ := by
  rw [excess_eq, List.findSome?_eq_some_iff]
  simp only [report_eq_some_iff, report_eq_none_iff]
  constructor
  · rintro ⟨front, ⟨v, body⟩, back, hsplit, ⟨hover, he⟩, hfront⟩
    exact ⟨front, v, body, back, hsplit, hfront, hover, he⟩
  · rintro ⟨front, v, body, back, hsplit, hfront, hover, he⟩
    exact ⟨front, (v, body), back, hsplit, ⟨hover, he⟩, hfront⟩

theorem excess_eq_none_iff (g : Grammar) (limit : Nat) :
    g.excess limit = none ↔ ∀ body ∈ g.bodies, body.nullableCount g.nullable ≤ limit := by
  rw [excess_eq, List.findSome?_eq_none_iff, ← map_snd_productions]
  simp only [report_eq_none_iff, List.forall_mem_map]

/-- One round of the loop over the bodies of a rule. The empty production is passed
    over, and the variants of any other body are pushed one after the other, unless it
    has too many nullable occurrences. -/
def visitBody (nullable : List Variable) (limit : Nat) (v : Variable) (built : Grammar)
    (body : Body) : Except TooComplex Grammar :=
  if body.isEpsilon then .ok built
  else reportOr (report nullable limit (v, body))
    (((body.variants nullable).filter (!·.isEmpty)).foldl (·.pushUnique v ·) built)

/-- One round of the loop over the rules: the variable comes in with no alternatives. -/
def visitRule (nullable : List Variable) (limit : Nat) (built : Grammar) (r : Rule) :
    Except TooComplex Grammar :=
  r.2.foldlM (visitBody nullable limit r.1) (built.declare r.1)

/-- The loop that builds the grammar without empty productions. -/
def rebuild (g : Grammar) (limit : Nat) : Except TooComplex Grammar :=
  g.rules.foldlM (visitRule g.nullable limit) empty

/-- What a round for a body builds when it does not look at the limit. -/
def pushVariants (nullable : List Variable) (v : Variable) (built : Grammar) (body : Body) :
    Grammar :=
  if body.isEpsilon then built
  else ((body.variants nullable).filter (!·.isEmpty)).foldl (·.pushUnique v ·) built

/-- What a round for a rule builds when it does not look at the limit. -/
def pushRule (nullable : List Variable) (built : Grammar) (r : Rule) : Grammar :=
  r.2.foldl (pushVariants nullable r.1) (built.declare r.1)

theorem visitBody_eq (nullable : List Variable) (limit : Nat) (v : Variable) (built : Grammar)
    (body : Body) : visitBody nullable limit v built body =
      reportOr (report nullable limit (v, body)) (pushVariants nullable v built body) := by
  rw [visitBody, pushVariants]
  by_cases hb : body.isEpsilon = true
  · -- There is nothing to report about `[ε]` either.
    have hzero : body.nullableCount nullable = 0 := by
      match body, hb with
      | [s], hs => rw [Body.nullableCount_of_isEpsilon nullable s [] hs]; rfl
    have hnone : report nullable limit (v, body) = none := by
      rw [report_eq_none_iff, hzero]
      exact Nat.zero_le limit
    rw [if_pos hb, if_pos hb, hnone]
    rfl
  · rw [if_neg hb, if_neg hb]

theorem visitRule_eq (nullable : List Variable) (limit : Nat) (built : Grammar) (r : Rule) :
    visitRule nullable limit built r =
      reportOr (ruleExcess nullable limit r) (pushRule nullable built r) := by
  rw [ruleExcess_eq nullable limit r.1 r.2]
  exact foldlM_reportOr _ _ _ (visitBody_eq nullable limit r.1) r.2 _

/-- Pushing one by one onto a variable that was updated makes one update. -/
theorem foldl_pushUnique (g : Grammar) (v : Variable) (f : List Body → List Body)
    (variants : List Body) : variants.foldl (·.pushUnique v ·) (g.update v f) =
      g.update v fun bodies => pushNew (f bodies) variants := by
  induction variants generalizing f with
  | nil => rfl
  | cons variant rest ih =>
      rw [List.foldl_cons, pushUnique, update_update, ih]
      refine congrArg (g.update v) (funext fun bodies => ?_)
      simp only [pushNew, pushBody, List.contains_iff_mem]

theorem foldl_pushVariants (nullable : List Variable) (g : Grammar) (v : Variable)
    (f : List Body → List Body) (bodies : List Body) :
    bodies.foldl (pushVariants nullable v) (g.update v f) =
      g.update v fun old => pushNew (f old) ((bodies.filter (!·.isEpsilon)).flatMap fun body =>
        (body.variants nullable).filter (!·.isEmpty)) := by
  -- The update grows with each body, which is why it is left open here.
  induction bodies generalizing f with
  | nil => rfl
  | cons body rest ih =>
      rw [List.foldl_cons, pushVariants]
      by_cases hb : body.isEpsilon = true
      · rw [if_pos hb, ih, List.filter_cons_of_neg (by rw [hb]; exact Bool.false_ne_true)]
      · rw [if_neg hb, foldl_pushUnique, ih,
          List.filter_cons_of_pos (by rw [Bool.eq_false_iff.mpr hb]; rfl)]
        refine congrArg (g.update v) (funext fun old => ?_)
        rw [List.flatMap_cons, pushNew_append]

/-- A rule for a new variable comes in last, with the variants of all its bodies. -/
theorem rules_pushRule (nullable : List Variable) (built : Grammar) (r : Rule)
    (h : r.1 ∉ built.defined) :
    (pushRule nullable built r).rules = built.rules ++ [(r.1, expand nullable r.2)] := by
  rw [pushRule, declare, foldl_pushVariants, update]
  refine (updateRules_of_not_mem r.1 _ built.rules h).trans ?_
  rw [id_eq, pushNew_nil, expand]

theorem rules_foldl_pushRule (nullable : List Variable) (rules : List Rule) (built : Grammar)
    (h : (built.defined ++ rules.map Prod.fst).Nodup) :
    (rules.foldl (pushRule nullable) built).rules =
      built.rules ++ rules.map fun r => (r.1, expand nullable r.2) := by
  induction rules generalizing built with
  | nil => exact (List.append_nil built.rules).symm
  | cons r rest ih =>
      rw [List.map_cons] at h
      -- No variable has two rules, so this one has not come in yet.
      have hnew : r.1 ∉ built.defined := fun hmem =>
        (List.nodup_append.mp h).2.2 r.1 hmem r.1 List.mem_cons_self rfl
      have hrules := rules_pushRule nullable built r hnew
      have hdef : (pushRule nullable built r).defined = built.defined ++ [r.1] := by
        rw [defined, hrules, List.map_append]
        rfl
      rw [List.foldl_cons, ih, hrules, List.append_assoc]
      · rfl
      · rw [hdef, List.append_assoc]
        exact h

/-- The loop reports the first production over the limit, and without one it builds
    the variants of everything. -/
theorem rebuild_eq (g : Grammar) (limit : Nat) :
    g.rebuild limit = reportOr (g.excess limit) g.withoutEpsilon := by
  have hbuilt : g.rules.foldl (pushRule g.nullable) empty = g.withoutEpsilon :=
    eq_of_rules _ _ (rules_foldl_pushRule g.nullable g.rules empty g.distinct)
  rw [rebuild, foldlM_reportOr _ _ _ (visitRule_eq g.nullable limit), hbuilt, excess]

theorem eliminateEpsilon_eq (g : Grammar) (start : Variable) (keep : Bool) (limit : Nat) :
    g.eliminateEpsilon start keep limit = reportOr (g.excess limit)
      (if g.retainsEpsilon start keep then g.withoutEpsilon.pushUnique start [.epsilon]
        else g.withoutEpsilon) := by
  rw [eliminateEpsilon]
  cases g.excess limit with
  | some e => rfl
  | none => rfl

/-- The removal of empty productions fails exactly if a body has more nullable
    occurrences than the limit. It reports the first production with such a body, with
    the number of occurrences and the limit. When it succeeds, it succeeds under every
    larger limit as well, and no limit gives another grammar. The stage is the loop that
    visits the productions one by one and stops at the first report, followed by the
    decision about the start symbol. -/
theorem eliminateEpsilon_fails_iff (g : Grammar) (start : Variable) (keep : Bool)
    (limit : Nat) :
    ((∃ e, g.eliminateEpsilon start keep limit = .error e) ↔
      ∃ body ∈ g.bodies, limit < body.nullableCount g.nullable) ∧
    (∀ e, g.eliminateEpsilon start keep limit = .error e ↔
      ∃ front v body back, g.productions = front ++ (v, body) :: back ∧
        (∀ p ∈ front, p.2.nullableCount g.nullable ≤ limit) ∧
        limit < body.nullableCount g.nullable ∧
        e = ⟨v, body.nullableCount g.nullable, limit⟩) ∧
    (∀ r, g.eliminateEpsilon start keep limit = .ok r → ∀ limit',
      (limit ≤ limit' → g.eliminateEpsilon start keep limit' = .ok r) ∧
      ∀ r', g.eliminateEpsilon start keep limit' = .ok r' → r' = r) ∧
    g.eliminateEpsilon start keep limit = (g.rebuild limit).map fun built =>
      if keep && g.nullable.contains start && !built.occursInBody start
        then built.pushUnique start [.epsilon] else built := by
  simp only [eliminateEpsilon_eq, reportOr_eq_error_iff, reportOr_eq_ok_iff]
  refine ⟨?_, g.excess_eq_some_iff limit, ?_, ?_⟩
  · rw [← Option.isSome_iff_exists, ← Option.ne_none_iff_isSome, Ne, excess_eq_none_iff]
    simp only [not_forall, Nat.not_le, exists_prop]
  · rintro r ⟨hnone, hr⟩ limit'
    refine ⟨fun hle => ⟨?_, hr⟩, fun r' hr' => hr'.2.symm.trans hr⟩
    rw [excess_eq_none_iff] at hnone ⊢
    exact fun body hb => Nat.le_trans (hnone body hb) hle
  · rw [rebuild_eq, map_reportOr]
    rfl

/-- The bodies of `B` and `C` have three and four nullable occurrences, and the markers
    and the `[ε]` in front of them have none. -/
def crowded : Grammar := ofRules [
  (⟨"S"⟩, [[.epsilon], [.nonterminal ⟨"A"⟩, .epsilon, .nonterminal ⟨"A"⟩]]),
  (⟨"B"⟩, [[.terminal ⟨"b"⟩], [.nonterminal ⟨"A"⟩, .terminal ⟨"a"⟩, .nonterminal ⟨"A"⟩,
    .nonterminal ⟨"S"⟩]]),
  (⟨"C"⟩, [[.nonterminal ⟨"A"⟩, .nonterminal ⟨"A"⟩, .nonterminal ⟨"A"⟩, .nonterminal ⟨"A"⟩]]),
  (⟨"A"⟩, [[.epsilon, .epsilon]])]

theorem crowded_fails :
    crowded.eliminateEpsilon ⟨"S"⟩ true 2 = .error ⟨⟨"B"⟩, 3, 2⟩ ∧
      ∃ r, crowded.eliminateEpsilon ⟨"S"⟩ true 4 = .ok r ∧
        ∀ limit, 4 ≤ limit → crowded.eliminateEpsilon ⟨"S"⟩ true limit = .ok r := by
  have hfails := (eliminateEpsilon_fails_iff crowded ⟨"S"⟩ true 2).2.1
  have hsame := (eliminateEpsilon_fails_iff crowded ⟨"S"⟩ true 4).2.2.1
  constructor
  · refine (hfails _).mpr ⟨[(⟨"S"⟩, [.epsilon]),
      (⟨"S"⟩, [.nonterminal ⟨"A"⟩, .epsilon, .nonterminal ⟨"A"⟩]), (⟨"B"⟩, [.terminal ⟨"b"⟩])],
      ⟨"B"⟩, [.nonterminal ⟨"A"⟩, .terminal ⟨"a"⟩, .nonterminal ⟨"A"⟩, .nonterminal ⟨"S"⟩],
      _, rfl, by decide, by decide, by decide⟩
  · exact ⟨_, rfl, fun limit hle => (hsame _ rfl limit).1 hle⟩

end Grammar

end Chomsky
