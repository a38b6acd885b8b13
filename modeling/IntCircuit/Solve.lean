import IntCircuit.Cnf.Encoder
import IntCircuit.Model
import IntCircuit.Sat.Incremental

/-!
# Solving

Finds values of a circuit's variables that make a node true. The node becomes clauses for a back
end, and of its answer the variables of the circuit are kept. A constant is settled without the
back end.

## Main definitions

* `Statistics`, `Solution`: the outcome
* `solveWith`: with any back end
* `solve`: with a new incremental back end
-/

namespace IntCircuit

/-- The size of what a back end was given, in numbers of 32 bits. -/
structure Statistics where
  numVariables : Nat := 0
  numClauses : Nat := 0
  deriving DecidableEq, Repr

/-- The outcome of a search. -/
inductive Solution where
  | sat (model : Model) (statistics : Statistics)
  | unsat (statistics : Statistics)

namespace Solution

/-- Whether there is a model. -/
def isSat : Solution → Bool
  | sat _ _ => true
  | unsat _ => false

/-- The model, if there is one. -/
def model? : Solution → Option Model
  | sat model _ => some model
  | unsat _ => none

/-- The size of what the back end was given. -/
def statistics : Solution → Statistics
  | sat _ statistics => statistics
  | unsat statistics => statistics

end Solution

/-- Searches values of the variables of `c` that make the node true. First as many variables are
declared to the back end as the circuit has labels, or the clauses name. -/
def solveWith {β : Type} [BackEnd β] (c : Circuit) (n : Node) : BackEndM β Solution :=
  match n.constant? with
  | some true => return .sat (.ofAssignment #[]) {}
  | some false => return .unsat {}
  | none => do
    let cnf := n.toCnf
    let numVariables := max cnf.numVariables c.labelCount
    (BackEnd.addVariables numVariables : StateM β Unit)
    cnf.clauses.toList.forM BackEnd.addClause
    let statistics := ⟨numVariables, cnf.numClauses % labelModulus⟩
    if ← BackEnd.solve then
      let values ← (List.range' 1 c.numVariables).mapM fun v => (BackEnd.valueOf v : StateM β Bool)
      return .sat (.ofAssignment values.toArray) statistics
    else return .unsat statistics

/-- Searches values of the variables of `c` that make the node true, with a back end of its own. -/
def solve (c : Circuit) (n : Node) : Except Fault Solution :=
  ((solveWith c n).run.run (Incremental.fresh ClauseStore)).1

end IntCircuit
