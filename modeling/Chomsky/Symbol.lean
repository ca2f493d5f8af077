/-!
# Symbols and Bodies

The letters of a context-free grammar.

A symbol is a variable or a terminal and nothing else. Both carry a text of any
length: variables read from a source are single uppercase letters, but the
conversion introduces longer ones, and a grammar built by hand may name its
symbols as it likes.

One terminal is set apart. The marker `ε` stands for the empty word, so a body
that is exactly `[ε]` is an empty production, while the zero-length body `[]` is
no production at all and derives nothing. The two are kept distinct everywhere.

## Main definitions

* `Variable`, `Terminal`, `Symbol`, `Body`: The letters and their sequences.
* `Symbol.classify`: The symbol a single source character denotes.
* `Body.isEpsilon`: The body is exactly `[ε]`.
* `Body.unitTarget`: The variable a unit production points to.
* `Symbol.le`: Terminals before variables, then by text.
-/

namespace Chomsky

/-- The character that marks an empty production. -/
def epsilonMark : Char := 'ε'

/-- A variable, also called a nonterminal. -/
structure Variable where
  /-- The name, by which alone variables are told apart. -/
  name : String
  deriving DecidableEq, Repr

/-- A terminal. -/
structure Terminal where
  /-- The text the terminal stands for. -/
  content : String
  deriving DecidableEq, Repr

/-- The marker `ε`. -/
def Terminal.epsilon : Terminal := ⟨String.singleton epsilonMark⟩

/-- Whether a terminal is the marker `ε`. A longer text of such marks is an
    ordinary terminal. -/
def Terminal.isEpsilon (t : Terminal) : Bool := t == Terminal.epsilon

/-- A symbol on the right-hand side of a production. -/
inductive Symbol where
  /-- A terminal, the marker `ε` included. -/
  | terminal (t : Terminal)
  | nonterminal (v : Variable)
  deriving DecidableEq, Repr

namespace Symbol

/-- The marker `ε` as a symbol. -/
def epsilon : Symbol := .terminal .epsilon

/-- The symbol a source character denotes: an uppercase ASCII letter is a
    variable, and every other character is a terminal. -/
def classify (c : Char) : Symbol :=
  if c.isUpper then .nonterminal ⟨String.singleton c⟩ else .terminal ⟨String.singleton c⟩

/-- The variable, if the symbol is one. -/
def asVariable : Symbol → Option Variable
  | .nonterminal v => some v
  | .terminal _ => none

/-- The terminal, if the symbol is one. -/
def asTerminal : Symbol → Option Terminal
  | .terminal t => some t
  | .nonterminal _ => none

/-- Whether the symbol is the marker `ε`. -/
def isEpsilon : Symbol → Bool
  | .terminal t => t.isEpsilon
  | .nonterminal _ => false

/-- The text of a symbol. It does not tell a variable from a terminal. -/
def text : Symbol → String
  | .terminal t => t.content
  | .nonterminal v => v.name

/-- Terminals come before variables, and within a kind the texts are compared
    character by character. -/
def le : Symbol → Symbol → Bool
  | .terminal s, .terminal t => decide (s.content ≤ t.content)
  | .terminal _, .nonterminal _ => true
  | .nonterminal _, .terminal _ => false
  | .nonterminal v, .nonterminal w => decide (v.name ≤ w.name)

end Symbol

/-- The right-hand side of a single production. -/
abbrev Body := List Symbol

namespace Body

/-- Whether a body is exactly `[ε]`, the empty production. -/
def isEpsilon : Body → Bool
  | [s] => s.isEpsilon
  | _ => false

/-- The variable a unit production points to. -/
def unitTarget : Body → Option Variable
  | [.nonterminal v] => some v
  | _ => none

/-- Whether a body is a single variable. -/
def isUnit (body : Body) : Bool := body.unitTarget.isSome

/-- The symbols of a body in the order `Symbol.le`. -/
def sorted (body : Body) : Body := body.mergeSort Symbol.le

end Body

end Chomsky
