import IntCircuit.Circuit.Signature
import IntCircuit.Fault
import IntCircuit.Label
import IntCircuit.Node.Basic
import Std.Data.TreeMap.Basic

/-!
# Circuits

A circuit is what its gates are made in: the number of its variables, the bitwidth of its words,
the gates made so far, and, when gates are shared, the gate made for each signature. Variables have
the labels from 1 to `numVariables`; gates have the labels that follow, in the order in which they
are made.

## Main definitions

* `Circuit`, `Circuit.create`: circuits, and the bounds that a new circuit keeps
* `Circuit.intern`: the gate of a signature, made if there is none to share
* `Circuit.var`, `Node.ofLabel`: the variables of a circuit, and of no particular one
* `Build`: computations that make gates in a circuit
-/

namespace IntCircuit

/-- The widest words that a circuit can have. -/
def maxBitwidth : Nat := 32

/-- What is chosen when a circuit is made, beside the number of its variables. -/
structure Settings where
  bitwidth : Nat := 4
  sharing : Bool := true
  deriving DecidableEq, Repr

/-- The variables, the settings and the gates of a circuit. -/
structure Circuit where
  /-- What tells this circuit from others. -/
  id : Nat
  numVariables : Nat
  bitwidth : Nat
  sharing : Bool
  bitwidth_pos : 0 < bitwidth
  bitwidth_le : bitwidth ≤ maxBitwidth
  numVariables_lt : numVariables < labelLimit
  /-- The gates, in the order in which they were made. -/
  gates : Array Node
  /-- The gate made for each signature; empty unless gates are shared. -/
  shared : Std.TreeMap Signature Node

namespace Circuit

/-- A circuit without gates. The bitwidth is judged before the number of variables. -/
def create (id numVariables : Nat) (settings : Settings) : Except Fault Circuit :=
  if hb : 0 < settings.bitwidth ∧ settings.bitwidth ≤ maxBitwidth then
    if hv : numVariables < labelLimit then
      .ok ⟨id, numVariables, settings.bitwidth, settings.sharing, hb.1, hb.2, hv, #[], ∅⟩
    else .error (.tooManyVariables numVariables)
  else .error (.bitwidthOutOfRange settings.bitwidth)

/-- The number of gates made so far. -/
def numGates (c : Circuit) : Nat :=
  c.gates.size

/-- The number of labels in use; up to `labelLimit` it is the largest of them. -/
def maxLabel (c : Circuit) : Nat :=
  c.numVariables + c.numGates

/-- The number of labels in use as a 32-bit counter has it. -/
def labelCount (c : Circuit) : Nat :=
  c.maxLabel % labelModulus

/-- The label of the next gate, after those in use. -/
def nextLabel (c : Circuit) : Int :=
  Label.ofCount (c.maxLabel + 1)

/-- The tag of the next gate. -/
def nextTag (c : Circuit) : Tag :=
  ⟨c.id, c.nextLabel⟩

/-- The gate that is shared by all that have the signature. -/
def find? (c : Circuit) (signature : Signature) : Option Node :=
  if c.sharing then c.shared[signature]? else none

/-- The circuit with one gate more. -/
def push (c : Circuit) (signature : Signature) (gate : Node) : Circuit :=
  { c with
    gates := c.gates.push gate
    shared := if c.sharing then c.shared.insert signature gate else c.shared }

/-- The gate of a signature: the one that there is to share, or else a new one. -/
def intern (c : Circuit) (signature : Signature) (make : Tag → Node) : Node × Circuit :=
  match c.find? signature with
  | some gate => (gate, c)
  | none =>
    let gate := make c.nextTag
    (gate, c.push signature gate)

/-- The variable with this label. -/
def var (c : Circuit) (label : Int) : Except Fault Node :=
  if 0 < label ∧ label ≤ c.numVariables then .ok (.var label.toNat)
  else .error (.variableLabel c.numVariables)

/-- Up to the limit the counter has not come round. -/
theorem labelCount_of_le {c : Circuit} (h : c.maxLabel ≤ labelLimit) : c.labelCount = c.maxLabel :=
  Nat.mod_eq_of_lt (Nat.lt_of_succ_lt (lt_labelModulus h))

@[simp] theorem numGates_push (c : Circuit) (signature : Signature) (gate : Node) :
    (c.push signature gate).numGates = c.numGates + 1 := by
  simp [numGates, push]

end Circuit

/-- A variable of no particular circuit. -/
def Node.ofLabel (label : Int) : Except Fault Node :=
  if 0 < label then .ok (.var label.toNat) else .error .labelNotPositive

/-- A computation that makes gates in a circuit. -/
abbrev Build := StateM Circuit

end IntCircuit
