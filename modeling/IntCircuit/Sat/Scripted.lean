import IntCircuit.Sat.BackEnd

/-!
# A back end that follows a script

It answers as it was told, whatever the clauses are, so that a solver can be watched with any
answers and any failure.

## Main definitions

* `Verdict`, `Script`: the answers to give
* `Scripted`: the back end
-/

namespace IntCircuit

/-- How a search ends. -/
inductive Verdict where
  | sat
  | unsat
  | failure
  deriving DecidableEq, Repr

/-- The answers to give. -/
structure Script where
  verdict : Verdict
  /-- The variables that are true. -/
  trueVariables : List Nat := []
  /-- The number of clauses after which no more is taken. -/
  capacity : Option Nat := none
  /-- The reason of every failure. -/
  reason : String := ""

/-- A script with the number of clauses taken so far. -/
structure Scripted where
  script : Script
  taken : Nat := 0

instance : BackEnd Scripted where
  addVariables _ := pure ()
  addClause _ := do
    let s ← get
    if s.script.capacity = some s.taken then throw (.backEnd s.script.reason)
    set { s with taken := s.taken + 1 }
  solve := do
    let s ← get
    match s.script.verdict with
    | .sat => return true
    | .unsat => return false
    | .failure => throw (.backEnd s.script.reason)
  valueOf v := return (← get).script.trueVariables.contains v

end IntCircuit
