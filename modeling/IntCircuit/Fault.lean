import IntCircuit.Operator

/-!
# Faults

Every way in which an operation of the library can refuse its input, by cause. The wording is in
`Fault.message` and nowhere else.

## Main definitions

* `Fault`: the causes
* `labelList`: the text of a word in a message, `b[1, 2]`
* `Fault.message`: the text of a fault
-/

namespace IntCircuit

/-- Why an operation refused its input. -/
inductive Fault where
  /-- A word with these labels was asked for its value and has a bit that is no constant. -/
  | notConstant (labels : List Int)
  /-- A bit position that is not below the bitwidth. -/
  | bitOutOfRange (position bitwidth : Nat)
  /-- A bitwidth that no circuit can have. -/
  | bitwidthOutOfRange (given : Nat)
  /-- More variables than a circuit can have. -/
  | tooManyVariables (given : Nat)
  /-- A range of variables that is empty or leaves those from 1 to `available`. -/
  | variableRange (start stop available : Nat)
  /-- A number of bits that a word of this bitwidth cannot have. -/
  | wordWidth (bitwidth given : Nat)
  /-- A SAT back end failed for a reason of its own. -/
  | backEnd (reason : String)
  /-- A literal that names no variable. -/
  | literalOutOfRange (literal : Int)
  /-- A label that is no variable of a circuit with this many variables. -/
  | variableLabel (available : Nat)
  /-- A variable label that is not positive. -/
  | labelNotPositive
  /-- An operator with a fixed number of inputs where a connective is needed. -/
  | notNary (op : Operator)
  /-- Two words, given by their labels, of different circuits. -/
  | foreignWord (left right : List Int)
  /-- A circuit that the workspace does not hold. -/
  | unknownCircuit (id : Nat)
  /-- A named integer without bits. -/
  | emptyInteger (name : String)
  /-- A name that already has its variables. -/
  | nameTaken (name : String)
  deriving DecidableEq, Repr

/-- The labels of a word's bits, the lowest first. -/
def labelList (labels : List Int) : String :=
  "b[" ++ ", ".intercalate (labels.map toString) ++ "]"

/-- The text of a fault. -/
def Fault.message : Fault → String
  | notConstant labels => "not constant: " ++ labelList labels ++ " is not constant"
  | bitOutOfRange position bitwidth =>
    s!"bit index {position} out of bounds for bitwidth {bitwidth}"
  | bitwidthOutOfRange given => s!"invalid argument: bitwidth must be in 1..=32, got {given}"
  | tooManyVariables given => s!"invalid argument: too many variables: {given}"
  | variableRange start stop available =>
    s!"invalid argument: variable range {start}..{stop} is not within 1..={available}"
  | wordWidth bitwidth given =>
    s!"invalid argument: integer width must be in 1..={bitwidth}, got {given}"
  | backEnd reason => "SAT backend error: " ++ reason
  | literalOutOfRange literal => s!"SAT backend error: literal {literal} is out of range"
  | variableLabel available => s!"Variable label must be in range 1..={available}"
  | labelNotPositive => "Variable labels must be positive"
  | notNary op => op.name ++ " is not an n-ary operator"
  | foreignWord left right =>
    labelList left ++ " and " ++ labelList right ++ " belong to different factories"
  | unknownCircuit id => s!"there is no circuit {id}"
  | emptyInteger name => "integer " ++ name ++ " must have at least one bit"
  | nameTaken name => "integer " ++ name ++ " is already allocated"

end IntCircuit
