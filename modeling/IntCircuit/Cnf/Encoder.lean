import IntCircuit.Cnf.Basic
import IntCircuit.Label
import IntCircuit.Node.Basic
import Std.Data.TreeSet.Basic

/-!
# The clauses of a circuit

A node becomes clauses by way of its labels. Each gate is defined by clauses which say that its
label agrees with its operator on the labels of its inputs; a unit clause at the end asserts the
node. Gates are defined after their inputs and no label is defined twice.

## Main definitions

* `Node.definition`: the clauses that define a gate
* `Encoder`: the clauses of the gates below a node
* `Node.toCnf`: the clauses that assert a node
-/

namespace IntCircuit

/-- Clauses by which `output` is the conjunction or disjunction of the inputs. -/
def Connective.definition (output : Int) (inputs : List Int) : Connective → List Clause
  | and => (inputs.map Label.neg ++ [output]) :: inputs.map fun input => [input, Label.neg output]
  | or => (inputs ++ [Label.neg output]) :: inputs.map fun input => [Label.neg input, output]

/-- The clauses that define the label of a gate by the labels of its inputs. -/
def Node.definition : Node → List Clause
  | const _ => []
  | var _ => []
  | nary tag op inputs => op.definition tag.label (inputs.map label)
  | not tag input =>
    [[input.label, tag.label], [Label.neg input.label, Label.neg tag.label]]
  | ite tag condition consequent alternative =>
    let output := tag.label
    [[Label.neg condition.label, Label.neg consequent.label, output],
      [Label.neg condition.label, consequent.label, Label.neg output],
      [condition.label, Label.neg alternative.label, output],
      [condition.label, alternative.label, Label.neg output]]

/-- The clauses so far, and the labels of the gates that need no more. -/
structure Encoder where
  cnf : Cnf := {}
  visited : Std.TreeSet Int := ∅

namespace Encoder

/-- Marks a label as defined. -/
def mark (e : Encoder) (label : Int) : Encoder :=
  { e with visited := e.visited.insert label }

/-- Adds clauses at the end. -/
def add (e : Encoder) (clauses : List Clause) : Encoder :=
  { e with cnf := e.cnf.addClauses clauses }

mutual

/-- Adds the definitions of a node's gates, the inputs' from left to right and then its own. -/
def visit (e : Encoder) : Node → Encoder
  | .const _ => e
  | .var _ => e
  | .nary tag op inputs =>
    if e.visited.contains tag.label then e
    else ((e.mark tag.label).visitAll inputs).add (Node.nary tag op inputs).definition
  | .not tag input =>
    if e.visited.contains tag.label then e
    else ((e.mark tag.label).visit input).add (Node.not tag input).definition
  | .ite tag condition consequent alternative =>
    if e.visited.contains tag.label then e
    else
      ((((e.mark tag.label).visit condition).visit consequent).visit alternative).add
        (Node.ite tag condition consequent alternative).definition

/-- Adds the definitions of the gates of a list of nodes. -/
def visitAll (e : Encoder) : List Node → Encoder
  | [] => e
  | n :: rest => (e.visit n).visitAll rest

end

end Encoder

/-- The clause that asserts a node, if it needs one: none for truth, the empty clause for
falsehood, and else its label. -/
def Node.assertion : Node → List Clause
  | const true => []
  | const false => [[]]
  | n => [[n.label]]

/-- The clauses that assert a node. -/
def Node.toCnf (n : Node) : Cnf :=
  ((Encoder.visit {} n).add n.assertion).cnf

end IntCircuit
