import Chomsky.Grammar.Lemmas
import Mathlib.Data.List.Induction

/-!
# Runs of Edits

A grammar built from nothing by any sequence of operations.

There are three operations, and all of them are updates of one variable
(`apply_eq_update`). They differ only in what they make of the alternatives that
the variable has at that moment. That is why a run can be told variable by
variable: the list of variables records who was mentioned first, and the
alternatives of a variable come from the edits of that variable alone, as if
there were no others.

Two edits of different variables do not see each other. The grammar after both of
them has the same entries in either order, if perhaps in another sequence, and
what each of them answers is the same. Later edits cannot tell the two grammars
apart either, since an edit looks at the entry of its own variable and at nothing
else. So the order of two such edits never matters again.

## Main definitions

* `Edit`: One operation on a grammar.
* `Edit.change`: What it makes of the alternatives of its variable.
* `Edit.answer`: What it answers.
* `Grammar.edit`, `Grammar.answers`: A run, and what its edits answer.

## Theorems

* `apply_eq_update`: Every edit is an update of one variable.
* `alternatives_pushUnique_self`: Appending a body answers whether it was added.
* `defined_edit_empty`: The variables after a run.
* `alternatives_edit`: The alternatives after a run.
* `equiv_edit`: A run does not see the sequence of the variables.
* `apply_comm`: Edits of different variables commute.
* `edit_empty`: Runs of edits from nothing.
-/

namespace Chomsky

/-- One operation on a grammar. -/
inductive Edit where
  | define (v : Variable) (bodies : List Body)
  | declare (v : Variable)
  | pushUnique (v : Variable) (body : Body)
  deriving DecidableEq, Repr

namespace Edit

/-- The variable that an edit mentions. -/
def target : Edit → Variable
  | define v _ => v
  | declare v => v
  | pushUnique v _ => v

/-- A grammar after an edit. -/
def apply (g : Grammar) : Edit → Grammar
  | define v bodies => g.define v bodies
  | declare v => g.declare v
  | pushUnique v body => g.pushUnique v body

/-- What an edit answers. Only appending a body does: whether it was added. -/
def answer (g : Grammar) : Edit → Option Bool
  | define _ _ => none
  | declare _ => none
  | pushUnique v body => some (g.lacks v body)

/-- What an edit makes of the alternatives of its variable: others, the same, or
    one more unless it is there. -/
def change (bodies : List Body) : Edit → List Body
  | define _ others => others
  | declare _ => bodies
  | pushUnique _ body => if bodies.contains body then bodies else bodies ++ [body]

theorem apply_eq_update (g : Grammar) (e : Edit) :
    e.apply g = g.update e.target fun bodies => e.change bodies := by
  cases e with
  | define v others => rfl
  | declare v => rfl
  | pushUnique v body =>
      simp only [change, List.contains_iff_mem]
      rfl

end Edit

namespace Grammar

@[simp] theorem lacks_iff (g : Grammar) (v : Variable) (body : Body) :
    g.lacks v body = true ↔ body ∉ g.alternatives v := by
  simp [lacks]

/-- Appending a body answers whether the body has been added. -/
theorem alternatives_pushUnique_self (g : Grammar) (v : Variable) (body : Body) :
    (g.pushUnique v body).alternatives v =
      g.alternatives v ++ if g.lacks v body then [body] else [] := by
  by_cases h : body ∈ g.alternatives v <;> simp [pushBody, h]

/-- A grammar after a run of edits. -/
def edit (g : Grammar) (edits : List Edit) : Grammar := edits.foldl Edit.apply g

/-- What the edits of a run answer, one after the other. -/
def answers (g : Grammar) : List Edit → List (Option Bool)
  | [] => []
  | e :: rest => e.answer g :: answers (e.apply g) rest

/-- A grammar of a list of rules is a run of definitions. -/
theorem ofRules_eq_edit (rules : List Rule) :
    ofRules rules = empty.edit (rules.map fun r => .define r.1 r.2) := by
  rw [ofRules, defineAll, edit, List.foldl_map]
  rfl

theorem edit_concat (g : Grammar) (edits : List Edit) (e : Edit) :
    g.edit (edits ++ [e]) = e.apply (g.edit edits) := by
  simp only [edit, List.foldl_append, List.foldl_cons, List.foldl_nil]

theorem edit_append (g : Grammar) (edits more : List Edit) :
    g.edit (edits ++ more) = (g.edit edits).edit more := List.foldl_append

theorem answers_append (g : Grammar) (edits more : List Edit) :
    g.answers (edits ++ more) = g.answers edits ++ (g.edit edits).answers more := by
  induction edits generalizing g with
  | nil => rfl
  | cons e rest ih =>
      simp only [List.cons_append, answers, ih]
      rfl

@[simp] theorem length_answers (g : Grammar) (edits : List Edit) :
    (g.answers edits).length = edits.length := by
  induction edits generalizing g with
  | nil => rfl
  | cons e rest ih => simp only [answers, List.length_cons, ih]

/-- The variables of a run from nothing are those that its edits mention, each at
    the place of its first mention. -/
theorem defined_edit_empty (edits : List Edit) :
    (empty.edit edits).defined = (edits.map Edit.target).eraseDups := by
  induction edits using List.reverseRecOn with
  | nil => rfl
  | append_singleton edits e ih =>
      simp [edit_concat, Edit.apply_eq_update, ih, eraseDups_concat]

/-- The alternatives of a variable come from its own edits, applied in order to the
    alternatives it had. -/
theorem alternatives_edit (g : Grammar) (edits : List Edit) (v : Variable) :
    (g.edit edits).alternatives v =
      (edits.filter fun e => e.target = v).foldl Edit.change (g.alternatives v) := by
  -- From the end, since the last edit acts on what all the others have left.
  induction edits using List.reverseRecOn with
  | nil => rfl
  | append_singleton edits e ih =>
      rw [edit_concat, Edit.apply_eq_update]
      by_cases hv : v = e.target
      · simp [hv ▸ ih, hv]
      · simp [ih, hv, Ne.symm hv]

/-- Grammars with the same entries have the same alternatives. -/
theorem Equiv.alternatives_eq {g h : Grammar} (H : g.Equiv h) (v : Variable) :
    g.alternatives v = h.alternatives v := by
  simp only [alternatives, H v]

theorem Equiv.answer_eq {g h : Grammar} (H : g.Equiv h) (e : Edit) : e.answer g = e.answer h := by
  cases e with
  | define v bodies => rfl
  | declare v => rfl
  | pushUnique v body => simp only [Edit.answer, lacks, H.alternatives_eq v]

@[simp] theorem lookup_update (g : Grammar) (v w : Variable) (f : List Body → List Body) :
    (g.update v f).rules.lookup w =
      if w = v then some (f (g.alternatives v)) else g.rules.lookup w :=
  lookup_updateRules v w f g.rules

theorem Equiv.apply {g h : Grammar} (H : g.Equiv h) (e : Edit) : (e.apply g).Equiv (e.apply h) := by
  intro w
  simp [Edit.apply_eq_update, H.alternatives_eq, H w]

/-- A run does not see the sequence of the variables: grammars with the same
    entries have the same entries after it, and its edits answer the same. -/
theorem equiv_edit (g h : Grammar) (H : g.Equiv h) (edits : List Edit) :
    (g.edit edits).Equiv (h.edit edits) ∧ g.answers edits = h.answers edits := by
  induction edits generalizing g h with
  | nil => exact ⟨H, rfl⟩
  | cons e rest ih =>
      have hrest := ih _ _ (H.apply e)
      refine ⟨hrest.1, ?_⟩
      simp only [answers, H.answer_eq e, hrest.2]

theorem apply_comm (g : Grammar) (a b : Edit) (h : a.target ≠ b.target) :
    (b.apply (a.apply g)).Equiv (a.apply (b.apply g)) := by
  intro w
  -- Neither edit sees the other, so it is enough to compare the entries one by one.
  by_cases ha : w = a.target
  · simp [Edit.apply_eq_update, ha, h]
  · simp [Edit.apply_eq_update, ha, h.symm]

/-- An edit answers the same whether or not another variable was edited before. -/
theorem answer_apply (g : Grammar) (a b : Edit) (h : a.target ≠ b.target) :
    b.answer (a.apply g) = b.answer g := by
  cases b with
  | define v bodies => rfl
  | declare v => rfl
  | pushUnique v body =>
      have hv : v ≠ a.target := fun e => h e.symm
      simp [Edit.answer, lacks, Edit.apply_eq_update, hv]

/-- What an edit in the middle of a run answers. -/
theorem getElem?_answers (g : Grammar) (front back : List Edit) (e : Edit) :
    (g.answers (front ++ e :: back))[front.length]? = some (e.answer (g.edit front)) := by
  simp [answers_append, answers]

/-- A grammar built from nothing by a run of edits has every variable once, in the
    order of the first mentions, and the alternatives of each come from its own
    edits alone. An edit that appends a body answers whether the body was new to its
    variable, and appends it exactly then. The others answer nothing.

    Two edits of different variables that follow each other may change places: the
    grammars are the same but for the sequence of the variables, and each edit
    answers what it answered before. -/
theorem edit_empty :
    (∀ edits : List Edit,
      (empty.edit edits).defined.Nodup ∧
      (empty.edit edits).defined = (edits.map Edit.target).eraseDups ∧
      ∀ v, (empty.edit edits).alternatives v =
        (edits.filter fun e => e.target = v).foldl Edit.change []) ∧
    (∀ (front back : List Edit) (e : Edit),
      ((∀ v body, e ≠ .pushUnique v body) →
        (empty.answers (front ++ e :: back))[front.length]? = some none) ∧
      ∀ v body, e = .pushUnique v body → ∃ added : Bool,
        (empty.answers (front ++ e :: back))[front.length]? = some (some added) ∧
        (added = true ↔ body ∉ (empty.edit front).alternatives v) ∧
        (empty.edit (front ++ [e])).alternatives v =
          (empty.edit front).alternatives v ++ if added then [body] else []) ∧
    ∀ (front back : List Edit) (a b : Edit), a.target ≠ b.target →
      (empty.edit (front ++ a :: b :: back)).Equiv (empty.edit (front ++ b :: a :: back)) ∧
      (empty.edit (front ++ a :: b :: back)).equiv (empty.edit (front ++ b :: a :: back)) = true ∧
      ∃ before x y after, before.length = front.length ∧
        empty.answers (front ++ a :: b :: back) = before ++ x :: y :: after ∧
        empty.answers (front ++ b :: a :: back) = before ++ y :: x :: after := by
  refine ⟨fun edits => ⟨(empty.edit edits).distinct, defined_edit_empty edits,
    fun v => alternatives_edit empty edits v⟩, fun front back e => ⟨fun hsilent => ?_, ?_⟩,
    fun front back a b h => ?_⟩
  · rw [getElem?_answers]
    cases e with
    | define v bodies => rfl
    | declare v => rfl
    | pushUnique v body => exact absurd rfl (hsilent v body)
  · rintro v body rfl
    refine ⟨(empty.edit front).lacks v body, getElem?_answers empty front back _,
      (empty.edit front).lacks_iff v body, ?_⟩
    rw [edit_concat]
    exact (empty.edit front).alternatives_pushUnique_self v body
  · have hback := equiv_edit _ _ (apply_comm (empty.edit front) a b h) back
    have hequiv : (empty.edit (front ++ a :: b :: back)).Equiv
        (empty.edit (front ++ b :: a :: back)) := by
      rw [edit_append, edit_append]
      exact hback.1
    refine ⟨hequiv, (equiv_iff _ _).mpr hequiv, empty.answers front, a.answer (empty.edit front),
      b.answer (empty.edit front), (b.apply (a.apply (empty.edit front))).answers back,
      empty.length_answers front, ?_, ?_⟩
    · simp only [answers_append, answers, answer_apply _ a b h]
    · simp only [answers_append, answers, answer_apply _ b a h.symm, hback.2]

/-- `S` is declared and `B` gets a body, in either order, after `A` got one. Then `A`
    is refused the body that it has already, and `S` is defined. -/
theorem edit_empty_declared :
    let front : List Edit := [.pushUnique ⟨"A"⟩ [.terminal ⟨"a"⟩]]
    let a : Edit := .declare ⟨"S"⟩
    let b : Edit := .pushUnique ⟨"B"⟩ [.terminal ⟨"b"⟩]
    let refused : Edit := .pushUnique ⟨"A"⟩ [.terminal ⟨"a"⟩]
    let edits := front ++ a :: b :: [refused, .define ⟨"S"⟩ [[.epsilon]]]
    let swapped := front ++ b :: a :: [refused, .define ⟨"S"⟩ [[.epsilon]]]
    (empty.edit edits).defined = [⟨"A"⟩, ⟨"S"⟩, ⟨"B"⟩] ∧
      (empty.edit swapped).defined = [⟨"A"⟩, ⟨"B"⟩, ⟨"S"⟩] ∧
      (empty.edit edits).alternatives ⟨"A"⟩ = [[.terminal ⟨"a"⟩]] ∧
      (empty.edit edits).alternatives ⟨"B"⟩ = [[.terminal ⟨"b"⟩]] ∧
      (empty.edit edits).alternatives ⟨"S"⟩ = [[.epsilon]] ∧
      empty.answers edits = [some true, none, some true, some false, none] ∧
      empty.answers swapped = [some true, some true, none, some false, none] ∧
      (empty.answers edits)[front.length + 2]? = some (some false) ∧
      (empty.edit (front ++ [a, b, refused])).alternatives ⟨"A"⟩ =
        (empty.edit (front ++ [a, b])).alternatives ⟨"A"⟩ ∧
      a.target ≠ b.target ∧
      (empty.edit edits).Equiv (empty.edit swapped) ∧
      (empty.edit edits).equiv (empty.edit swapped) = true := by
  intro front a b refused edits swapped
  have hne : a.target ≠ b.target := by decide
  rcases edit_empty.1 edits with ⟨_, hdefined, halternatives⟩
  rcases edit_empty.2.2 front [refused, .define ⟨"S"⟩ [[.epsilon]]] a b hne with
    ⟨hEquiv, hequiv, _⟩
  -- The body that `A` has already is not added, so the second one is refused.
  rcases (edit_empty.2.1 (front ++ [a, b]) [.define ⟨"S"⟩ [[.epsilon]]] refused).2 _ _ rfl with
    ⟨added, hanswer, hadded, hafter⟩
  have hold : added = false := by
    rw [← Bool.not_eq_true, hadded]
    decide
  subst hold
  refine ⟨hdefined.trans (by decide), (edit_empty.1 swapped).2.1.trans (by decide),
    (halternatives _).trans (by decide), (halternatives _).trans (by decide),
    (halternatives _).trans (by decide), by decide, by decide, hanswer, ?_, hne, hEquiv, hequiv⟩
  rwa [if_neg Bool.false_ne_true, List.append_nil] at hafter

end Grammar

end Chomsky
