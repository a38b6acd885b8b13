import IntCircuit.Node.Basic

/-!
# The value of a node

The plain meaning of a node under an assignment of the variables, by recursion on the node and
without any memory of values found before.

## Main definitions

* `Node.eval`: the value of a node
-/

namespace IntCircuit.Node

mutual

/-- The value of a node when variable `v` has the value `σ v`. -/
def eval (σ : Nat → Bool) : Node → Bool
  | const value => value
  | var label => σ label
  | nary _ op inputs => op.join (evalAll σ inputs)
  | not _ input => !input.eval σ
  | ite _ condition consequent alternative =>
    if condition.eval σ then consequent.eval σ else alternative.eval σ

/-- The values of the nodes of a list. -/
def evalAll (σ : Nat → Bool) : List Node → List Bool
  | [] => []
  | n :: rest => n.eval σ :: evalAll σ rest

end

@[simp] theorem evalAll_eq_map (σ : Nat → Bool) (nodes : List Node) :
    evalAll σ nodes = nodes.map (eval σ) := by
  induction nodes with
  | nil => rfl
  | cons n rest ih => simp [evalAll, ih]

@[simp] theorem eval_const (σ : Nat → Bool) (value : Bool) : (const value).eval σ = value := by
  simp [eval]

@[simp] theorem eval_var (σ : Nat → Bool) (label : Nat) : (var label).eval σ = σ label := by
  simp [eval]

@[simp] theorem eval_nary (σ : Nat → Bool) (tag : Tag) (op : Connective) (inputs : List Node) :
    (nary tag op inputs).eval σ = op.join (inputs.map (eval σ)) := by
  simp [eval]

@[simp] theorem eval_not (σ : Nat → Bool) (tag : Tag) (input : Node) :
    (not tag input).eval σ = !input.eval σ := by
  simp [eval]

@[simp] theorem eval_ite (σ : Nat → Bool) (tag : Tag) (c t e : Node) :
    (ite tag c t e).eval σ = if c.eval σ then t.eval σ else e.eval σ := by
  simp [eval]

end IntCircuit.Node
