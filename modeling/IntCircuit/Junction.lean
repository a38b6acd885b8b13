import IntCircuit.Circuit.Gate

/-!
# Junctions

A junction collects the inputs of a conjunction or disjunction one by one. It drops the constant
that the connective ignores; with the absorbing constant it is decided, and holds no inputs from
then on. Whoever builds the inputs can stop once it is decided.

## Main definitions

* `Junction`, `Junction.empty`, `Junction.ofOperator`, `Junction.add`, `Junction.decided?`
* `Junction.ofList`: collects a list up to the input that decides
* `Junction.feed`: builds inputs and collects them, up to the one that decides
* `Build.accumulate`: the gate over what was collected
-/

namespace IntCircuit

/-- The inputs of a gate as far as they are known. -/
structure Junction where
  op : Connective
  inputs : Array Node := #[]
  isDecided : Bool := false

namespace Junction

/-- A junction without inputs. -/
def empty (op : Connective) : Junction :=
  { op }

/-- A junction for an operator, which has to take any number of inputs. -/
def ofOperator (op : Operator) : Except Fault Junction :=
  match op.connective? with
  | some connective => .ok (empty connective)
  | none => .error (.notNary op)

/-- The constant that decides the gate, if the junction has met it. -/
def decided? (j : Junction) : Option Bool :=
  if j.isDecided then some j.op.absorbing else none

/-- Collects one input. -/
def add (j : Junction) (n : Node) : Junction :=
  if j.isDecided then j
  else
    match n with
    | .const value =>
      if value = j.op.absorbing then { j with inputs := #[], isDecided := true } else j
    | _ => { j with inputs := j.inputs.push n }

/-- The number of inputs held. -/
def size (j : Junction) : Nat :=
  j.inputs.size

/-- Collects nodes up to the first that decides the gate. -/
def addUntilDecided (j : Junction) : List Node → Junction
  | [] => j
  | n :: rest =>
    let next := j.add n
    if next.isDecided then next else next.addUntilDecided rest

/-- The junction of a list of nodes. -/
def ofList (op : Connective) (nodes : List Node) : Junction :=
  (empty op).addUntilDecided nodes

/-- Collects what `make` builds for each item in turn, and builds no more once decided. -/
def feed {α : Type} (make : α → Build Node) (j : Junction) : List α → Build Junction
  | [] => pure j
  | item :: rest => do
    let next := j.add (← make item)
    if next.isDecided then pure next else feed make next rest

end Junction

namespace Build

/-- The gate over the inputs of a junction. -/
def accumulate (j : Junction) : Build Node :=
  if j.isDecided then pure (.const j.op.absorbing) else nary j.op j.inputs.toList

/-- The disjunction of the nodes up to the first true constant. -/
def anyOf (nodes : List Node) : Build Node :=
  accumulate (Junction.ofList .or nodes)

/-- The conjunction of the nodes up to the first false constant. -/
def allOf (nodes : List Node) : Build Node :=
  accumulate (Junction.ofList .and nodes)

end Build

end IntCircuit
