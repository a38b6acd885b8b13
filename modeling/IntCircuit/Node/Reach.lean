import IntCircuit.Node.Basic
import Std.Data.TreeMap.Basic

/-!
# Reachable gates

The gates below some nodes, each label once. Should two gates have one label, the one that is met
first stands for it, where later roots and later inputs are met before earlier ones.

## Main definitions

* `Node.gatesBelow`: the reachable gates by ascending label
-/

namespace IntCircuit.Node

/-- Gates by label. -/
abbrev GateMap := Std.TreeMap Int Node

mutual

/-- The gates found so far together with those of a node. -/
def collect (found : GateMap) : Node → GateMap
  | const _ => found
  | var _ => found
  | nary tag op inputs =>
    if found.contains tag.label then found
    else collectAll (found.insert tag.label (nary tag op inputs)) inputs
  | not tag input =>
    if found.contains tag.label then found
    else input.collect (found.insert tag.label (not tag input))
  | ite tag condition consequent alternative =>
    if found.contains tag.label then found
    else
      let found := found.insert tag.label (ite tag condition consequent alternative)
      condition.collect (consequent.collect (alternative.collect found))

/-- The gates found so far together with those of the nodes, the last node first. -/
def collectAll (found : GateMap) : List Node → GateMap
  | [] => found
  | n :: rest => n.collect (collectAll found rest)

end

/-- The gates that some nodes are or are made of, by ascending label. -/
def gatesBelow (roots : List Node) : List Node :=
  (collectAll ∅ roots).values

end IntCircuit.Node
