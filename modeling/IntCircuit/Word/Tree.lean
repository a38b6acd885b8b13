import IntCircuit.Operator

/-!
# Balanced combination

Combines any number of items by an operation on two, neighbours first and the results in the same
way after. An item without a neighbour moves up as it is.

## Main definitions

* `combinePairs`: one level
* `combineTree`: all levels
-/

namespace IntCircuit

variable {m : Type → Type} [Monad m] {α : Type}

/-- Combines neighbours two by two. -/
def combinePairs (op : α → α → m α) : List α → m (List α)
  | a :: b :: rest => do
    let c ← op a b
    return c :: (← combinePairs op rest)
  | rest => pure rest

/-- Combines an item and all others, at most `levels` times over. -/
def combineLevels (op : α → α → m α) : Nat → α → List α → m α
  | 0, first, _ => pure first
  | _ + 1, first, [] => pure first
  | levels + 1, first, second :: rest => do
    let first ← op first second
    combineLevels op levels first (← combinePairs op rest)

/-- Combines an item and all others. There are fewer levels than items. -/
def combineTree (op : α → α → m α) (first : α) (others : List α) : m α :=
  combineLevels op others.length first others

end IntCircuit
