import IntCircuit.Bits.Basic

/-!
# Products

Multiplication by shifting and adding: one row for each bit of the first factor, each added one
position further up. The row of the sign has negative weight, so it is subtracted.

## Main definitions

* `Bits.mul`: the product
-/

namespace IntCircuit.Bits

/-- Adds to `above`, the partial product from the position before the next row up, a row for each
bit of the list; the last bit of the list is the sign. The row of the sign meets the partial
product only in its last bit, where its complement and one are added. -/
def addRows (y : Bits) : Bits → Bits → Build Bits
  | [], above => pure above
  | _, [] => pure []
  | [sign], settled :: above => do
    let row ← Build.not (← Build.and sign (y.bit 0))
    return settled :: (← ripple pure (above.zip [row]) (.const true))
  | bit :: rest, settled :: above => do
    let above ← ripple (Build.and bit) (above.zip y) (.const false)
    return settled :: (← addRows y rest above)

/-- The product of two integers, as wide as both together as far as the bitwidth allows. -/
def mul (x y : Bits) : Build Bits := do
  let width := min (x.length + y.length) (← get).bitwidth
  let x := x.extend width
  let y := y.extend width
  let first ← y.mapM (Build.and (x.bit 0))
  addRows y (x.drop 1) first

end IntCircuit.Bits
