import IntCircuit.Label
import IntCircuit.Sat.BackEnd
import IntCircuit.Sat.Engine

/-!
# Incremental solving

A back end made from an engine. It counts what it was given, refuses literals that name no
variable, and keeps the last model for the variables that clauses had mentioned by then. Variables
that are not declared, or that no clause mentions, are false.

## Main definitions

* `Literal.inRange`: the literals that a clause may hold
* `Incremental`: the back end of an engine
-/

namespace IntCircuit

/-- Whether a literal names a variable: it is not zero, and no larger than 32-bit numbers are. -/
def Literal.inRange (literal : Literal) : Bool :=
  literal != 0 && literal.natAbs ≤ labelLimit + 1

/-- An engine with what is counted about it. -/
structure Incremental (ε : Type) where
  engine : ε
  /-- The number of variables declared; those who declare them keep it within 32 bits. -/
  numVariables : Nat := 0
  /-- The number of clauses taken, counted in 32 bits. No answer depends on it. -/
  numClauses : Nat := 0
  /-- The largest variable that a clause mentions. -/
  maxVariable : Nat := 0
  /-- The last model, on the variables mentioned by then. -/
  solution : Valuation := fun _ => none

namespace Incremental

variable {ε : Type} [Engine ε]

/-- A back end without variables and clauses. -/
def fresh (ε : Type) [Engine ε] : Incremental ε :=
  { engine := Engine.empty }

/-- Declares that many variables more. -/
def addVariables (s : Incremental ε) (count : Nat) : Incremental ε :=
  { s with numVariables := s.numVariables + count }

/-- Adds a clause, all of whose literals have to name variables. -/
def addClause (s : Incremental ε) (clause : Clause) : Except Fault (Incremental ε) :=
  match clause.find? fun literal => !literal.inRange with
  | some literal => .error (.literalOutOfRange literal)
  | none =>
    .ok { s with
      engine := Engine.add s.engine clause
      numClauses := (s.numClauses + 1) % labelModulus
      maxVariable := max s.maxVariable clause.maxVariable }

/-- Whether the clauses have a model, which is kept. -/
def solve (s : Incremental ε) : Bool × Incremental ε :=
  let (found, engine) := Engine.solve s.engine
  match found with
  | some model =>
    (true, { s with engine, solution := fun v => if v ≤ s.maxVariable then model v else none })
  | none => (false, { s with engine, solution := fun _ => none })

/-- The value of a variable in the last model. -/
def valueOf (s : Incremental ε) (v : Nat) : Bool :=
  v != 0 && v ≤ s.numVariables && v ≤ s.maxVariable && s.solution v == some true

instance : BackEnd (Incremental ε) where
  addVariables count := modify fun s => s.addVariables count
  addClause clause := do
    match (← get).addClause clause with
    | .ok s => set s
    | .error fault => throw fault
  solve := modifyGet solve
  valueOf v := return (← get).valueOf v

end Incremental

end IntCircuit
