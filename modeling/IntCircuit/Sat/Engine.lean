import IntCircuit.Sat.Search

/-!
# Engines

An engine is a solver reduced to its core: it takes clauses and finds models of all it was given.

## Main definitions

* `Valuation`: what an engine finds
* `Engine`: clause stores that find models
* `ClauseStore`: the engine that runs `Search` on all its clauses
-/

namespace IntCircuit

/-- Values of some variables; the others may have either value. -/
abbrev Valuation := Nat → Option Bool

/-- A solver with states of type `ε` that takes clauses and finds models of all it was given. -/
class Engine (ε : Type) where
  /-- The engine without clauses. -/
  empty : ε
  /-- Adds a clause. -/
  add (engine : ε) (clause : Clause) : ε
  /-- A model of the clauses if there is one, and the engine after the search. -/
  solve (engine : ε) : Option Valuation × ε

/-- The engine that keeps its clauses and searches anew each time. -/
structure ClauseStore where
  clauses : Array Clause := #[]

instance : Engine ClauseStore where
  empty := {}
  add store clause := ⟨store.clauses.push clause⟩
  solve store := ((Search.findModel store.clauses.toList).map fun a v => a[v]?, store)

end IntCircuit
