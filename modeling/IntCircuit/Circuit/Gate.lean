import IntCircuit.Circuit.Basic

/-!
# Making gates

Every gate is folded before it is made. A conjunction or disjunction loses its constants and its
repeated inputs, is settled by the absorbing constant or by an input and its negation, and needs a
gate only if at least two inputs are left. A negation meets no constant and no other negation. A
choice whose condition or branches are constant, or repeated, is one of the gates before.

## Main definitions

* `Connective.fold`: what is left of a list of inputs
* `Build.nary`, `Build.not`, `Build.ite`: the gates
* `Build.and`, `Build.or`, `Build.xor`, `Build.iff`, `Build.implies`, `Build.sum`, `Build.carry`:
  what is built from them
-/

namespace IntCircuit

/-- The nodes without those whose label another has before them. -/
def Node.distinct : List Node → List Node
  | [] => []
  | n :: rest => n :: (distinct rest).filter fun m => m.label != n.label

/-- Whether one of the nodes is the negation of another, by label. -/
def Node.complementary (nodes : List Node) : Bool :=
  nodes.any fun n =>
    match n.notInput? with
    | some input => nodes.any fun m => m.label == input.label
    | none => false

/-- What folding leaves of a gate. -/
inductive Folded where
  /-- The gate is this node. -/
  | node (n : Node)
  /-- A gate over these inputs is needed. -/
  | gate (inputs : List Node)

/-- Folds the inputs of a connective. -/
def Connective.fold (op : Connective) (inputs : List Node) : Folded :=
  if inputs.any fun n => n.constant? == some op.absorbing then .node (.const op.absorbing)
  else
    let distinct := Node.distinct (inputs.filter fun n => !n.isConst)
    if Node.complementary distinct then .node (.const op.absorbing)
    else
      match distinct with
      | [] => .node (.const op.identity)
      | [n] => .node n
      | rest => .gate rest

namespace Build

/-- A gate of the signature, shared or new. -/
def intern (signature : Signature) (make : Tag → Node) : Build Node :=
  modifyGet fun c => c.intern signature make

/-- The conjunction or disjunction of the inputs. -/
def nary (op : Connective) (inputs : List Node) : Build Node :=
  match op.fold inputs with
  | .node n => pure n
  | .gate rest =>
    intern (.nary op (Label.sort (rest.map Node.label))) fun tag => .nary tag op rest

/-- The conjunction of two nodes. -/
def and (a b : Node) : Build Node :=
  nary .and [a, b]

/-- The disjunction of two nodes. -/
def or (a b : Node) : Build Node :=
  nary .or [a, b]

/-- The negation of a node. -/
def not (input : Node) : Build Node :=
  match input with
  | .const value => pure (.const !value)
  | .not _ inner => pure inner
  | _ => intern (.not input.label) fun tag => .not tag input

/-- The consequent if the condition holds, and else the alternative. -/
def ite (condition consequent alternative : Node) : Build Node :=
  match condition with
  | .const value => pure (if value then consequent else alternative)
  | _ =>
    if consequent.same alternative then pure consequent
    else
      match consequent, alternative with
      | .const true, _ => or condition alternative
      | .const false, _ => do and (← not condition) alternative
      | _, .const true => do or (← not condition) consequent
      | _, .const false => and condition consequent
      | _, _ =>
        if condition.same consequent then or condition alternative
        else if condition.same alternative then and condition consequent
        else
          intern (.ite condition.label consequent.label alternative.label) fun tag =>
            .ite tag condition consequent alternative

/-- Whether exactly one of two nodes holds. -/
def xor (a b : Node) : Build Node := do
  ite a (← not b) b

/-- Whether two nodes agree. -/
def iff (a b : Node) : Build Node := do
  ite a b (← not b)

/-- Whether the second node holds if the first does. -/
def implies (a b : Node) : Build Node := do
  or (← not a) b

/-- The sum of a full adder. -/
def sum (a b carryIn : Node) : Build Node := do
  xor carryIn (← xor a b)

/-- The carry out of a full adder. -/
def carry (a b carryIn : Node) : Build Node := do
  let both ← and a b
  let passed ← and carryIn (← xor a b)
  or both passed

end Build

end IntCircuit
