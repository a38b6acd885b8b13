import IntCircuit.Bits.Basic

/-!
# Shifts

Shifts by an amount that is itself an integer of nodes. Stage `i` moves all bits by `2 ^ i`
positions if bit `i` of the amount holds. There are as many stages as positions below the bitwidth
need bits; higher bits of the amount are not looked at.

## Main definitions

* `Bits.shiftLeft`: towards higher positions, zeros come in
* `Bits.shiftRight`: towards lower positions, zeros come in
* `Bits.shiftRightSigned`: towards lower positions, the sign comes in
-/

namespace IntCircuit.Bits

/-- The number of stages: the least `m` with `bitwidth ≤ 2 ^ m`. -/
def shiftStages (bitwidth : Nat) : Nat :=
  if bitwidth ≤ 1 then 0 else (bitwidth - 1).log2 + 1

/-- A stage of a left shift by `distance`; gates are made from the highest position down. -/
def shiftLeftStage (distance : Nat) (move : Node) (x : Bits) : Build Bits := do
  let moved := (List.replicate distance (Node.const false) ++ x).take x.length
  let high ← (moved.zip x).reverse.mapM fun (far, near) => Build.ite move far near
  return high.reverse

/-- A stage of a right shift by `distance`; gates are made from the lowest position up. -/
def shiftRightStage (fill : Node) (distance : Nat) (move : Node) (x : Bits) : Build Bits :=
  let moved := x.drop distance ++ List.replicate (min distance x.length) fill
  (moved.zip x).mapM fun (far, near) => Build.ite move far near

/-- All stages in turn, on the first integer at full bitwidth. -/
def shiftBy (stage : Nat → Node → Bits → Build Bits) (x amount : Bits) : Build Bits := do
  let bitwidth := (← get).bitwidth
  (List.range (shiftStages bitwidth)).foldlM
    (fun shifted i => stage (1 <<< i) (amount.bit i) shifted) (x.extend bitwidth)

/-- The first integer moved towards higher positions. -/
def shiftLeft (x amount : Bits) : Build Bits :=
  shiftBy shiftLeftStage x amount

/-- The first integer moved towards lower positions; zeros come in. -/
def shiftRight (x amount : Bits) : Build Bits :=
  shiftBy (shiftRightStage (.const false)) x amount

/-- The first integer moved towards lower positions; its sign comes in. -/
def shiftRightSigned (x amount : Bits) : Build Bits :=
  shiftBy (shiftRightStage x.sign) x amount

end IntCircuit.Bits
