import IntCircuit.Bits.Basic

/-!
# Workspaces

A workspace holds circuits side by side. Operations that check their operands run in it: they end
with a result or a fault, and in both cases with a workspace, so that gates made before a fault
stay.

## Main definitions

* `Workspace`, `Work`: the circuits, and checked operations on them
* `Work.build`: gates made in one of the circuits
* `Work.create`: a new circuit
-/

namespace IntCircuit

/-- Circuits, each at the position of its number. -/
structure Workspace where
  circuits : Array Circuit := #[]

/-- An operation on the circuits of a workspace that may find a fault in its operands. -/
abbrev Work := ExceptT Fault (StateM Workspace)

namespace Workspace

/-- Whether some circuit has a gate. -/
def hasGates (w : Workspace) : Bool :=
  w.circuits.any fun c => c.numGates != 0

end Workspace

namespace Work

/-- The circuit with this number. -/
def circuit (id : Nat) : Work Circuit := do
  match (← get).circuits[id]? with
  | some c => return c
  | none => throw (.unknownCircuit id)

/-- Makes gates in the circuit with this number. -/
def build {α : Type} (id : Nat) (gates : Build α) : Work α := do
  let c ← circuit id
  let (result, c) := gates.run c
  modify fun w => { w with circuits := w.circuits.setIfInBounds id c }
  return result

/-- Adds a circuit and tells its number. -/
def create (numVariables : Nat) (settings : Settings) : Work Nat := do
  let id := (← get).circuits.size
  match Circuit.create id numVariables settings with
  | .ok c =>
    modify fun w => { w with circuits := w.circuits.push c }
    return id
  | .error fault => throw fault

end Work

end IntCircuit
