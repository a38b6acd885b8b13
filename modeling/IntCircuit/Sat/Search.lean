import IntCircuit.Cnf.Basic
import Std.Data.TreeMap.Basic
import Std.Data.TreeSet.Basic

/-!
# Search for a model

A complete search: unit clauses are propagated as long as there are any, then the smallest open
variable is tried with both values. What it finds is a partial assignment that makes a literal of
every clause true, so the variables it leaves open may have either value.

## Main definitions

* `Search.Assignment`: values of some variables
* `Search.propagateOnce`, `Search.propagate`: the consequences of unit clauses
* `Search.branch`: both values of every open variable
* `Search.findModel`: the search
-/

namespace IntCircuit.Search

/-- Values of some variables. -/
abbrev Assignment := Std.TreeMap Nat Bool

/-- The truth of a literal, if its variable has a value. -/
def Assignment.truth? (a : Assignment) (literal : Literal) : Option Bool :=
  a[literal.natAbs]?.map fun value => value == decide (0 < literal)

/-- Gives a variable the value that makes the literal true. -/
def Assignment.assume (a : Assignment) (literal : Literal) : Assignment :=
  a.insert literal.natAbs (decide (0 < literal))

/-- What is left of a clause: nothing if one of its literals is true, and else the literals that
are not false. -/
def Assignment.reduce (a : Assignment) : Clause → Option Clause
  | [] => some []
  | literal :: rest =>
    match a.truth? literal with
    | some true => none
    | some false => a.reduce rest
    | none => (a.reduce rest).map (literal :: ·)

/-- Reduces the clauses in turn. A clause of one literal makes it true at once; there is no result
if nothing is left of a clause that has to hold. -/
def propagateOnce (a : Assignment) : List Clause → Option (Assignment × List Clause)
  | [] => some (a, [])
  | clause :: rest =>
    match a.reduce clause with
    | none => propagateOnce a rest
    | some [] => none
    | some [literal] => propagateOnce (a.assume literal) rest
    | some remaining => (propagateOnce a rest).map fun (a, left) => (a, remaining :: left)

/-- Reduces the clauses until none of them goes away, at most `rounds` times. -/
def propagateRounds : Nat → Assignment → List Clause → Option (Assignment × List Clause)
  | 0, a, clauses => some (a, clauses)
  | rounds + 1, a, clauses =>
    match propagateOnce a clauses with
    | none => none
    | some (a, left) =>
      if left.length < clauses.length then propagateRounds rounds a left else some (a, left)

/-- Reduces the clauses until none of them goes away. -/
def propagate (a : Assignment) (clauses : List Clause) : Option (Assignment × List Clause) :=
  propagateRounds (clauses.length + 1) a clauses

/-- Tries both values of the variables in turn, skipping those that have a value, until no clause
is left. -/
def branch (a : Assignment) (clauses : List Clause) : List Nat → Option Assignment
  | [] => if clauses.isEmpty then some a else none
  | v :: rest =>
    if clauses.isEmpty then some a
    else if a.contains v then branch a clauses rest
    else
      let tryValue (value : Bool) : Option Assignment :=
        match propagate (a.insert v value) clauses with
        | none => none
        | some (a, left) => branch a left rest
      tryValue false <|> tryValue true

/-- The variables of the clauses in ascending order. -/
def mentioned (clauses : List Clause) : List Nat :=
  let literals : List Literal := clauses.flatten
  (Std.TreeSet.ofList (literals.map Int.natAbs)).toList

/-- A partial assignment that makes a literal of every clause true, if there is one. -/
def findModel (clauses : List Clause) : Option Assignment :=
  match propagate ∅ clauses with
  | none => none
  | some (a, left) => branch a left (mentioned left)

end IntCircuit.Search
