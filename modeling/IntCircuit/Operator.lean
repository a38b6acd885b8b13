/-!
# Operators

What a gate computes. Conjunction and disjunction take any number of inputs; each has a constant
that settles it and a constant that it ignores, and the two are opposite.

## Main definitions

* `Connective`: conjunction and disjunction, with `absorbing`, `identity` and the truth function
  `join`
* `Operator`: the operator of any gate
-/

namespace IntCircuit

/-- The operators that take any number of inputs. -/
inductive Connective where
  | and
  | or
  deriving DecidableEq, Repr

namespace Connective

/-- The constant that settles a gate whatever its other inputs are. -/
def absorbing : Connective → Bool
  | and => false
  | or => true

/-- The constant that a gate ignores; it is also the value of a gate without inputs. -/
def identity (op : Connective) : Bool :=
  !op.absorbing

/-- The truth function of a connective. -/
def join : Connective → List Bool → Bool
  | and, values => values.all id
  | or, values => values.any id

@[simp] theorem join_nil (op : Connective) : op.join [] = op.identity := by
  cases op <;> rfl

@[simp] theorem join_cons (op : Connective) (v : Bool) (values : List Bool) :
    op.join (v :: values) = if v = op.absorbing then op.absorbing else op.join values := by
  cases op <;> cases v <;> simp [join, absorbing]

end Connective

/-- The operator of a gate. -/
inductive Operator where
  | and
  | or
  | not
  | ite
  deriving DecidableEq, Repr

namespace Operator

/-- The operator as a connective, if it takes any number of inputs. -/
def connective? : Operator → Option Connective
  | and => some .and
  | or => some .or
  | not => none
  | ite => none

/-- Whether the operator takes any number of inputs. -/
def isNary (op : Operator) : Bool :=
  op.connective?.isSome

/-- The written name of the operator. -/
def name : Operator → String
  | and => "AND"
  | or => "OR"
  | not => "NOT"
  | ite => "ITE"

end Operator

/-- A connective as the operator of a gate. -/
def Connective.operator : Connective → Operator
  | and => .and
  | or => .or

end IntCircuit
