import Chomsky.Proofs.Idle

/-!
# Stages as Normalizations

Each of the later stages settles the form of the bodies, and what it does beyond that is
nothing at all.

Removing unit productions leaves no body that is a single variable, breaking up long
bodies leaves none of three symbols or more, and isolating terminals leaves no terminal in
a body of two. Bodies of that form are what the stage is after, wherever they come from,
so the bodies that it writes itself have the form as well: a link of a chain has two
symbols, and the variable of an isolated terminal has a body of one.

Two properties say it all. The stage reaches its form on every grammar, and it is the
identity on a grammar that has the form. The second is an equality of grammars, with the
order of the variables, which the comparison of grammars leaves out of account. As that
comparison sees all alternatives, a stage whose result compares equal to the grammar has
shown the grammar to have the form. Doing the stage twice is the identity on what it has
reached.

## Main definitions

* `Normalizes`: A stage reaches a form of bodies and is the identity exactly there.

## Theorems

* `normalizes_of`: The two properties are enough.
* `normalizes_stages`: The three stages behind the first, each with its form.
-/

namespace Chomsky

open Grammar

/-- A stage brings the bodies of every grammar into a form, and it leaves a grammar as it is
    exactly if the bodies of the grammar have that form already. -/
structure Normalizes (stage : Grammar → Grammar) (Form : Body → Prop) : Prop where
  reaches : ∀ g, ∀ body ∈ (stage g).bodies, Form body
  /-- Grammars are compared without regard to the order of their variables. -/
  equiv_iff : ∀ g, (stage g).equiv g = true ↔ ∀ body ∈ g.bodies, Form body
  /-- That order stays the same, too. -/
  keeps : ∀ g, (∀ body ∈ g.bodies, Form body) → stage g = g
  idempotent : ∀ g, stage (stage g) = stage g

namespace Grammar

theorem equiv_refl (g : Grammar) : g.equiv g = true := (equiv_iff g g).mpr fun _ => rfl

/-- Grammars that compare equal have the same bodies. -/
theorem Equiv.mem_bodies_iff {g h : Grammar} (H : g.Equiv h) (body : Body) :
    body ∈ g.bodies ↔ body ∈ h.bodies := by
  rw [Grammar.mem_bodies_iff, Grammar.mem_bodies_iff]
  exact exists_congr fun v => by rw [H.alternatives_eq v]

end Grammar

/-- A stage that reaches a form and keeps what has it changes nothing else. -/
theorem normalizes_of (stage : Grammar → Grammar) (Form : Body → Prop)
    (reaches : ∀ g, ∀ body ∈ (stage g).bodies, Form body)
    (keeps : ∀ g, (∀ body ∈ g.bodies, Form body) → stage g = g) : Normalizes stage Form where
  reaches := reaches
  equiv_iff g := by
    constructor
    · intro h body hb
      -- The bodies are those of the result, which has the form.
      have H := (equiv_iff (stage g) g).mp h
      exact reaches g body ((H.mem_bodies_iff body).mpr hb)
    · intro h
      rw [keeps g h]
      exact g.equiv_refl
  keeps := keeps
  idempotent g := keeps (stage g) (reaches g)

namespace Grammar

theorem normalizes_eliminateUnits :
    Normalizes eliminateUnits fun body => ∀ u, body ≠ [.nonterminal u] := by
  refine normalizes_of _ _ (fun g body hb => ?_) fun g h => g.eliminateUnits_eq_self ?_
  · rcases (mem_bodies_iff _ body).mp hb with ⟨v, hv⟩
    exact body.isUnit_eq_false_iff.mp (g.unitFree_eliminateUnits v body hv)
  · exact fun v body hb =>
      body.isUnit_eq_false_iff.mpr (h body ((g.mem_bodies_iff body).mpr ⟨v, hb⟩))

theorem normalizes_eliminateLong : Normalizes eliminateLong fun body => body.length < 3 := by
  refine normalizes_of _ _ (fun g body hb => ?_) fun g h => g.eliminateLong_eq_self ?_
  · rcases (mem_bodies_iff _ body).mp hb with ⟨v, hv⟩
    exact Nat.lt_succ_of_le (g.binary_eliminateLong v body hv)
  · exact fun v body hb => Nat.le_of_lt_succ (h body ((g.mem_bodies_iff body).mpr ⟨v, hb⟩))

theorem normalizes_isolateTerminals :
    Normalizes isolateTerminals fun body => body.length = 2 → ∀ t, .terminal t ∉ body := by
  refine normalizes_of _ _ (fun g body hb hlen t ht => ?_) fun g h => g.isolateTerminals_eq_self ?_
  · rcases (mem_bodies_iff _ body).mp hb with ⟨v, hv⟩
    rcases g.of_mem_alternatives_isolateTerminals v body hv with ⟨_, hother⟩ | hp | ⟨s, _, rfl⟩
    · exact hother hlen
    · rcases hp.2 _ ht with ⟨u, he, _⟩
      exact Symbol.noConfusion he
    · -- The body of an isolated terminal has one symbol.
      rw [List.length_singleton] at hlen
      exact absurd hlen (by decide)
  · exact fun v body hb => h body ((g.mem_bodies_iff body).mpr ⟨v, hb⟩)

end Grammar

/-- Removing unit productions, breaking up long bodies and isolating terminals each reach a
    form of bodies on every grammar: no single variable, less than three symbols, no
    terminal in a body of two. The result compares equal to the grammar exactly if the
    bodies of the grammar have the form, and then it is the same grammar, in the same
    order. Doing the stage again changes nothing. -/
theorem normalizes_stages :
    Normalizes eliminateUnits (fun body => ∀ u, body ≠ [.nonterminal u]) ∧
    Normalizes eliminateLong (fun body => body.length < 3) ∧
    Normalizes isolateTerminals (fun body => body.length = 2 → ∀ t, .terminal t ∉ body) :=
  ⟨normalizes_eliminateUnits, normalizes_eliminateLong, normalizes_isolateTerminals⟩

/-- A grammar without a unit or a pair with a terminal, but with a long body that stands
    twice and with a zero-length one. -/
def overlong : Grammar := ofRules [
  (⟨"N1"⟩, [[], [.terminal ⟨"a"⟩, .nonterminal ⟨"N1"⟩, .terminal ⟨"b"⟩],
    [.terminal ⟨"a"⟩, .nonterminal ⟨"N1"⟩, .terminal ⟨"b"⟩]]),
  (⟨"A"⟩, [[.nonterminal ⟨"X"⟩, .nonterminal ⟨"A"⟩], [.epsilon]])]

theorem normalizes_overlong :
    (∀ body ∈ overlong.bodies, body.length = 2 → ∀ t, .terminal t ∉ body) ∧
    overlong.isolateTerminals = overlong ∧
    overlong.eliminateUnits.equiv overlong = true ∧
    overlong.eliminateLong.equiv overlong = false ∧
    (∀ body ∈ overlong.eliminateLong.bodies, body.length < 3) ∧
    overlong.eliminateLong.eliminateLong = overlong.eliminateLong := by
  rcases normalizes_stages with ⟨hunits, hlong, hterminals⟩
  have hbodies : overlong.bodies = [[], [.terminal ⟨"a"⟩, .nonterminal ⟨"N1"⟩, .terminal ⟨"b"⟩],
      [.terminal ⟨"a"⟩, .nonterminal ⟨"N1"⟩, .terminal ⟨"b"⟩],
      [.nonterminal ⟨"X"⟩, .nonterminal ⟨"A"⟩], [.epsilon]] := by rfl
  have hpairs : ∀ body ∈ overlong.bodies, body.length = 2 → ∀ t, .terminal t ∉ body := by
    simp [hbodies]
  have hsingles : ∀ body ∈ overlong.bodies, ∀ u, body ≠ [.nonterminal u] := by
    simp [hbodies, Symbol.epsilon]
  refine ⟨hpairs, hterminals.keeps overlong hpairs, (hunits.equiv_iff overlong).mpr hsingles, ?_,
    hlong.reaches overlong, hlong.idempotent overlong⟩
  rw [← Bool.not_eq_true, hlong.equiv_iff]
  exact fun h => absurd (h _ (hbodies ▸ List.mem_cons_of_mem _ List.mem_cons_self)) (by decide)

end Chomsky
