import IntCircuit.Bits.Basic

/-!
# Comparisons

Circuits that compare two integers. Each stops building once its answer is a constant.

## Main definitions

* `Bits.eq`, `Bits.ne`: equality, from the lowest bit up
* `Bits.le`, `Bits.lt`: the order of signed integers, from the sign down
-/

namespace IntCircuit.Bits

/-- Whether two integers are equal. -/
def eq (x y : Bits) : Build Node := do
  let agree ← Junction.feed (fun (a, b) => Build.iff a b) (.empty .and) (align (maxWidth x y) x y)
  Build.accumulate agree

/-- Whether two integers differ. -/
def ne (x y : Bits) : Build Node := do
  Build.not (← eq x y)

/-- Collects, for bits from high to low, that the first is at most the second wherever all higher
ones agree; `agree` tells whether they do. -/
def leBelow (j : Junction) (agree : Node) : List (Node × Node) → Build Junction
  | [] => pure j
  | (a, b) :: rest => do
    let next := j.add (← Build.implies agree (← Build.implies a b))
    if next.isDecided then pure next
    else leBelow next (← Build.and agree (← Build.iff a b)) rest

/-- Whether the first integer is at most the second. At the sign the roles are exchanged: a
negative second integer needs a negative first one. -/
def le (x y : Bits) : Build Node := do
  let last := maxWidth x y - 1
  let sign := (Junction.empty .and).add (← Build.implies (y.bit last) (x.bit last))
  let agree ← Build.iff (x.bit last) (y.bit last)
  let below := (align (last + 1) x y).take last
  Build.accumulate (← leBelow sign agree below.reverse)

/-- Whether the first integer is less than the second. -/
def lt (x y : Bits) : Build Node := do
  let atMost ← le x y
  let differ ← Junction.feed (fun (a, b) => Build.xor a b) (.empty .or) (align (maxWidth x y) x y)
  Build.and atMost (← Build.accumulate differ)

end IntCircuit.Bits
