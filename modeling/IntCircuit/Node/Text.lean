import IntCircuit.Node.Basic

/-!
# Nodes as text

The full structure of a node as a text, gates with their labels and all that they are made of.

## Main definitions

* `Node.text`: the text of a node
-/

namespace IntCircuit.Node

/-- The text of a variable. -/
def varText (label : Nat) : String :=
  "Variable(BooleanVariable \x7b label: " ++ toString label ++ " \x7d)"

/-- The text of a gate, between its operator and the end. -/
def gateText (tag : Tag) (kind : String) : String :=
  "Formula(BooleanFormula \x7b label: " ++ toString tag.label ++ ", kind: " ++ kind ++ " \x7d)"

/-- The written name of a connective in the text of a gate. -/
def connectiveText : Connective → String
  | .and => "And"
  | .or => "Or"

mutual

/-- The text of a node. -/
def text : Node → String
  | const value => "Constant(" ++ (if value then "TRUE" else "FALSE") ++ ")"
  | var label => varText label
  | nary tag op inputs =>
    gateText tag (connectiveText op ++ "([" ++ ", ".intercalate (textAll inputs) ++ "])")
  | not tag input => gateText tag ("Not(" ++ input.text ++ ")")
  | ite tag condition consequent alternative =>
    gateText tag ("Ite \x7b condition: " ++ condition.text ++ ", then_val: " ++ consequent.text ++
      ", else_val: " ++ alternative.text ++ " \x7d")

/-- The texts of the nodes of a list. -/
def textAll : List Node → List String
  | [] => []
  | n :: rest => n.text :: textAll rest

end

end IntCircuit.Node
