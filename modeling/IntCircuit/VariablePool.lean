import IntCircuit.Fault
import IntCircuit.Label
import Std.Data.TreeMap.Basic

/-!
# Variable pools

A pool hands out consecutive variables to named integers. Labels and widths are 32-bit numbers: a
width is cut to its low 32 bits once it is known not to be zero, and labels wrap.

## Main definitions

* `LabelRange`: the labels from `start` up to, and without, `stop`
* `VariablePool`, `VariablePool.allocate`, `VariablePool.range?`, `VariablePool.numVariables`
-/

namespace IntCircuit

/-- The labels from `start` up to, and without, `stop`. -/
structure LabelRange where
  start : Nat
  stop : Nat
  deriving DecidableEq, Repr

/-- The next label to hand out, and the labels of each name. -/
structure VariablePool where
  next : Nat := 1
  ranges : Std.TreeMap String LabelRange := ∅

namespace VariablePool

/-- The number of variables handed out. -/
def numVariables (p : VariablePool) : Nat :=
  (p.next + (labelModulus - 1)) % labelModulus

/-- The labels of a name. -/
def range? (p : VariablePool) (name : String) : Option LabelRange :=
  p.ranges[name]?

/-- Hands out the next `width` labels to a new name. That there is at least one is judged before
the name is. -/
def allocate (p : VariablePool) (name : String) (width : Nat) :
    Except Fault (LabelRange × VariablePool) :=
  if width = 0 then .error (.emptyInteger name)
  else if p.ranges.contains name then .error (.nameTaken name)
  else
    let stop := (p.next + width % labelModulus) % labelModulus
    let range : LabelRange := ⟨p.next, stop⟩
    .ok (range, ⟨stop, p.ranges.insert name range⟩)

end VariablePool

end IntCircuit
