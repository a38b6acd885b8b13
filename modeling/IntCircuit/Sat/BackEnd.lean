import IntCircuit.Cnf.Basic
import IntCircuit.Fault

/-!
# SAT back ends

What the library needs of a SAT solver. A back end has a state; every call may change it, and a
call that fails keeps what it has changed. Any back end can be made to keep a transcript: what it
was asked and what it answered, in order.

## Main definitions

* `BackEnd`: variables, clauses, the search and the values found, for states of type `β`
* `Exchange`: a call with its answer
* `Logged`: a back end with the transcript of its calls
-/

namespace IntCircuit

/-- A call of a back end with states of type `β`, which may fail. -/
abbrev BackEndM (β : Type) := ExceptT Fault (StateM β)

/-- A SAT solver with states of type `β`. -/
class BackEnd (β : Type) where
  /-- Declares that many variables more. -/
  addVariables (count : Nat) : StateM β Unit
  /-- Adds a clause. -/
  addClause (clause : Clause) : BackEndM β Unit
  /-- Whether the clauses have a common model. -/
  solve : BackEndM β Bool
  /-- The value of a variable in the model found. -/
  valueOf (v : Nat) : StateM β Bool

/-- A call with its answer. -/
inductive Exchange where
  | addVariables (count : Nat)
  | addClause (clause : Clause) (answer : Except Fault Unit)
  | solve (answer : Except Fault Bool)
  | valueOf (v : Nat) (answer : Bool)

/-- A back end with the transcript of its calls. -/
structure Logged (β : Type) where
  state : β
  transcript : Array Exchange := #[]

namespace Logged

variable {β : Type}

/-- Makes a call that cannot fail and notes it with its answer. -/
def ask {α : Type} (note : α → Exchange) (call : StateM β α) : StateM (Logged β) α :=
  modifyGet fun s =>
    let (answer, state) := call.run s.state
    (answer, ⟨state, s.transcript.push (note answer)⟩)

/-- Makes a call that may fail and notes it with its answer. -/
def attempt {α : Type} (note : Except Fault α → Exchange) (call : BackEndM β α) :
    BackEndM (Logged β) α :=
  ExceptT.mk (ask note call.run)

instance [BackEnd β] : BackEnd (Logged β) where
  addVariables count := ask (fun _ => .addVariables count) (BackEnd.addVariables count)
  addClause clause := attempt (.addClause clause) (BackEnd.addClause clause)
  solve := attempt .solve BackEnd.solve
  valueOf v := ask (.valueOf v) (BackEnd.valueOf v)

end Logged

end IntCircuit
