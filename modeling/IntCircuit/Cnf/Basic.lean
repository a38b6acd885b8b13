/-!
# Clauses

Propositional formulas in conjunctive normal form. A literal is a number that is not zero: the
number of a variable, with a minus sign where the variable is negated.

## Main definitions

* `Literal`, `Clause`, `Cnf`, `Cnf.addClause`
* `Literal.holds`, `Clause.holds`, `Cnf.holds`: truth under an assignment

## Main results

* `Cnf.holds_addClauses`: a longer formula holds if the shorter one and the new clauses do
-/

namespace IntCircuit

/-- A variable, or with a minus sign its negation. -/
abbrev Literal := Int

/-- Whether a literal holds when variable `v` has the value `τ v`. -/
def Literal.holds (τ : Nat → Bool) (literal : Literal) : Bool :=
  τ literal.natAbs == decide (0 < literal)

/-- A disjunction of literals. -/
abbrev Clause := List Literal

/-- Whether some literal of a clause holds. -/
def Clause.holds (τ : Nat → Bool) (clause : Clause) : Bool :=
  clause.any (Literal.holds τ)

/-- The largest variable of a clause, or 0. -/
def Clause.maxVariable (clause : Clause) : Nat :=
  clause.foldl (fun greatest literal => max greatest literal.natAbs) 0

/-- A conjunction of clauses, in the order in which they were added, and its largest variable. -/
structure Cnf where
  numVariables : Nat := 0
  clauses : Array Clause := #[]

namespace Cnf

/-- Adds a clause at the end. -/
def addClause (cnf : Cnf) (clause : Clause) : Cnf where
  numVariables := max cnf.numVariables clause.maxVariable
  clauses := cnf.clauses.push clause

/-- Adds clauses at the end. -/
def addClauses (cnf : Cnf) (clauses : List Clause) : Cnf :=
  clauses.foldl addClause cnf

/-- The number of clauses. -/
def numClauses (cnf : Cnf) : Nat :=
  cnf.clauses.size

/-- Whether all clauses hold. -/
def holds (τ : Nat → Bool) (cnf : Cnf) : Bool :=
  cnf.clauses.all (Clause.holds τ)

@[simp] theorem holds_addClause (τ : Nat → Bool) (cnf : Cnf) (clause : Clause) :
    (cnf.addClause clause).holds τ = (cnf.holds τ && clause.holds τ) := by
  simp [holds, addClause]

theorem holds_addClauses (τ : Nat → Bool) (cnf : Cnf) (clauses : List Clause) :
    (cnf.addClauses clauses).holds τ = (cnf.holds τ && clauses.all (Clause.holds τ)) := by
  induction clauses generalizing cnf with
  | nil => simp [addClauses]
  | cons clause rest ih =>
    rw [addClauses, List.foldl_cons, ← addClauses, ih, holds_addClause, List.all_cons,
      Bool.and_assoc]

end Cnf

end IntCircuit
