import IntCircuit.Bits.Logic

/-!
# Sums, differences and signs

Addition with one bit more than the wider integer has, as far as the bitwidth allows, and what is
built from it.

## Main definitions

* `Bits.add`, `Bits.sub`, `Bits.neg`
* `Bits.abs`, `Bits.signum`
-/

namespace IntCircuit.Bits

/-- The width of a sum. -/
def sumWidth (bitwidth : Nat) (x y : Bits) : Nat :=
  min (maxWidth x y + 1) bitwidth

/-- The sum of two integers. -/
def add (x y : Bits) : Build Bits := do
  let width := sumWidth (← get).bitwidth x y
  ripple pure (align width x y) (.const false)

/-- The difference of two integers: the complement of the second is added, and one. -/
def sub (x y : Bits) : Build Bits := do
  let width := sumWidth (← get).bitwidth x y
  ripple Build.not (align width x y) (.const true)

/-- The integer with the opposite sign. -/
def neg (x : Bits) : Build Bits :=
  sub [.const false] x

/-- The integer without its sign. -/
def abs (x : Bits) : Build Bits := do
  let nonnegative ← Build.not x.sign
  choose nonnegative x (← neg x)

/-- The sign as an integer: -1, 0 or 1. With one bit there is no 1, and none is needed. -/
def signum (x : Bits) : Build Bits := do
  let nonzero ← Build.anyOf x
  return [nonzero, x.sign].take (← get).bitwidth

end IntCircuit.Bits
