import IntCircuit.Word.Basic

/-!
# Models

A model holds values of variables and answers for nodes and words over them. The value of a gate is
found from its inputs, up to the input that settles it, and is kept for the next question about its
label.

## Main definitions

* `Model`, `Model.ofAssignment`
* `Model.valueOf`, `Model.valueOfWord`: answers, and the model with what was found
-/

namespace IntCircuit

/-- Values of variables, and the values of gates found so far by label. -/
structure Model where
  /-- The value of variable `v` at position `v - 1`; variables past the end are false. -/
  assignment : Array Bool
  memo : Std.TreeMap Int Bool

namespace Model

/-- A model in which no gate has been looked at. -/
def ofAssignment (assignment : Array Bool) : Model :=
  ⟨assignment, ∅⟩

/-- The value of a variable. -/
def variableValue (m : Model) (label : Nat) : Bool :=
  m.assignment.getD (label - 1) false

/-- Keeps the value of a gate. -/
def remember (m : Model) (label : Int) (value : Bool) : Model :=
  { m with memo := m.memo.insert label value }

/-- The kept value of a gate, or else the one that `find` finds, to be kept. -/
def cached (label : Int) (find : StateM Model Bool) : StateM Model Bool := do
  match (← get).memo[label]? with
  | some value => return value
  | none =>
    let value ← find
    modify fun m => m.remember label value
    return value

mutual

/-- The value of a node. -/
def valueOf : Node → StateM Model Bool
  | .const value => pure value
  | .var label => return (← get).variableValue label
  | .nary tag op inputs => cached tag.label (join op inputs)
  | .not tag input => cached tag.label do return !(← valueOf input)
  | .ite tag condition consequent alternative =>
    cached tag.label do
      if ← valueOf condition then valueOf consequent else valueOf alternative

/-- The value of a connective over nodes, which looks at them up to the one that settles it. -/
def join (op : Connective) : List Node → StateM Model Bool
  | [] => pure op.identity
  | n :: rest => do
    if (← valueOf n) = op.absorbing then return op.absorbing else join op rest

end

/-- The integer that a word stands for. -/
def valueOfWord (x : Word) : StateM Model Int := do
  return decode (← x.bits.mapM valueOf)

end Model

end IntCircuit
