import IntCircuit.Operator

/-!
# Nodes

A node of a circuit: a constant, a variable, or a gate over other nodes. A gate carries a tag, the
circuit that made it and its label there, and the tag is its identity: two gates are the same node
when their tags agree, however alike their inputs are. A node is a finite tree in which common
parts are shared in memory.

## Main definitions

* `Node`, `Tag`: nodes, and the identity of a gate
* `Node.label`: the number that stands for a node in clauses
* `Node.Identity`, `Node.same`: when two nodes are one
* `Node.inputs`, `Node.operator?`, `Node.constant?`, `Node.notInput?`: what a node is made of
-/

namespace IntCircuit

/-- The identity of a gate: the circuit that made it, and its label there. -/
structure Tag where
  owner : Nat
  label : Int
  deriving DecidableEq, Repr

/-- A constant, a variable or a gate. -/
inductive Node where
  | const (value : Bool)
  | var (label : Nat)
  | nary (tag : Tag) (op : Connective) (inputs : List Node)
  | not (tag : Tag) (input : Node)
  | ite (tag : Tag) (condition consequent alternative : Node)
  deriving Inhabited

namespace Node

/-- The label of a constant: truth has 0 and falsehood -1. -/
def constLabel (value : Bool) : Int :=
  if value then 0 else -1

/-- The number that stands for a node: its own for a gate or a variable, see `constLabel` for a
constant. -/
def label : Node → Int
  | const value => constLabel value
  | var label => label
  | nary tag _ _ => tag.label
  | not tag _ => tag.label
  | ite tag _ _ _ => tag.label

/-- The tag of a gate. -/
def tag? : Node → Option Tag
  | const _ => none
  | var _ => none
  | nary tag _ _ => some tag
  | not tag _ => some tag
  | ite tag _ _ _ => some tag

/-- The operator of a gate. -/
def operator? : Node → Option Operator
  | const _ => none
  | var _ => none
  | nary _ op _ => some op.operator
  | not _ _ => some .not
  | ite _ _ _ _ => some .ite

/-- The inputs of a gate in stored order; condition, consequent, alternative for a choice. -/
def inputs : Node → List Node
  | const _ => []
  | var _ => []
  | nary _ _ inputs => inputs
  | not _ input => [input]
  | ite _ condition consequent alternative => [condition, consequent, alternative]

/-- The value of a constant. -/
def constant? : Node → Option Bool
  | const value => some value
  | _ => none

/-- The input of a negation. -/
def notInput? : Node → Option Node
  | not _ input => some input
  | _ => none

/-- Whether the node is a constant. -/
def isConst (n : Node) : Bool :=
  n.constant?.isSome

/-- Whether the node is a variable. -/
def isVar : Node → Bool
  | var _ => true
  | _ => false

/-- Whether the node is a gate. -/
def isGate (n : Node) : Bool :=
  n.operator?.isSome

/-- What tells a node from others: its value, its number or its tag. -/
inductive Identity where
  | const (value : Bool)
  | var (label : Nat)
  | gate (tag : Tag)
  deriving DecidableEq, Repr

/-- The identity of a node. -/
def identity : Node → Identity
  | const value => .const value
  | var label => .var label
  | nary tag _ _ => .gate tag
  | not tag _ => .gate tag
  | ite tag _ _ _ => .gate tag

/-- Whether two nodes are one. A gate is only itself, whatever the labels of other nodes are. -/
def same (a b : Node) : Bool :=
  a.identity = b.identity

theorem same_iff {a b : Node} : a.same b = true ↔ a.identity = b.identity := by
  simp [same]

@[simp] theorem same_self (a : Node) : a.same a = true := by
  simp [same]

end Node

end IntCircuit
