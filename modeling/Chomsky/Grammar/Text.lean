import Chomsky.Grammar.Basic

/-!
# Grammars as Text

One line for each variable: its name, an arrow, and its alternatives separated
by bars. The symbols of a body stand apart by a space, which keeps the longer
names of introduced variables readable, or close together in the compact form.

## Main definitions

* `Grammar.text`: Symbols apart by a space.
* `Grammar.compact`: Symbols close together.
-/

namespace Chomsky

/-- The symbols of a body with `gap` between them. -/
def Body.text (gap : String) (body : Body) : String :=
  gap.intercalate (body.map Symbol.text)

/-- A variable, the arrow, and the alternatives with a bar between them. -/
def Rule.text (arrow gap : String) (r : Rule) : String :=
  r.1.name ++ arrow ++ " | ".intercalate (r.2.map (Body.text gap))

namespace Grammar

/-- One line for each variable, with no newline after the last. -/
def render (arrow gap : String) (g : Grammar) : String :=
  "\n".intercalate (g.rules.map (Rule.text arrow gap))

/-- The grammar with a space between the symbols of a body. -/
def text (g : Grammar) : String := g.render " → " " "

/-- The grammar with the symbols of a body close together. -/
def compact (g : Grammar) : String := g.render " → " ""

end Grammar

end Chomsky
