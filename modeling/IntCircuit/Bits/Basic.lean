import IntCircuit.Junction

/-!
# Bits

A list of nodes read as an integer in two's complement, the lowest bit first. The last bit is the
sign and stands for every bit after it.

## Main definitions

* `encode`, `decode`: integers as lists of truth values
* `Bits`, `Bits.bit`, `Bits.sign`, `Bits.extend`, `Bits.align`: bits at any position
* `Bits.literal`: an integer as bits
* `Bits.ripple`: addition from the lowest bit up
-/

namespace IntCircuit

/-- The lowest `width` bits of an integer in two's complement. -/
def encode : Nat → Int → List Bool
  | 0, _ => []
  | width + 1, n => (n % 2 == 1) :: encode width (n / 2)

/-- The integer of a list of bits in two's complement; the last bit has negative weight. -/
def decode : List Bool → Int
  | [] => 0
  | [sign] => if sign then -1 else 0
  | bit :: rest => (if bit then 1 else 0) + 2 * decode rest

/-- Nodes read as an integer in two's complement, the lowest bit first. -/
abbrev Bits := List Node

namespace Bits

/-- The bit at a position; past the end it is the last bit. -/
def bit (x : Bits) (i : Nat) : Node :=
  x.getD (min i (x.length - 1)) (.const false)

/-- The last bit. -/
def sign (x : Bits) : Node :=
  x.bit (x.length - 1)

/-- The bits with the sign repeated up to the width. -/
def extend (x : Bits) (width : Nat) : Bits :=
  x ++ List.replicate (width - x.length) x.sign

/-- The width that two integers share. -/
def maxWidth (x y : Bits) : Nat :=
  max x.length y.length

/-- The bits of two integers side by side, up to the width. -/
def align (width : Nat) (x y : Bits) : List (Node × Node) :=
  (x.extend width).zip (y.extend width)

/-- The labels of the bits. -/
def labels (x : Bits) : List Int :=
  x.map Node.label

/-- Whether every bit is a constant. -/
def isConst (x : Bits) : Bool :=
  x.all Node.isConst

/-- The values of the bits, if they are constants. -/
def constants? (x : Bits) : Option (List Bool) :=
  x.mapM Node.constant?

/-- The least width in which an integer has a sign of its own, at most `bitwidth`. -/
def literalWidth (bitwidth : Nat) (n : Int) : Nat :=
  let magnitude := (if n < 0 then -n - 1 else n).toNat
  min ((if magnitude = 0 then 0 else magnitude.log2 + 1) + 1) bitwidth

/-- The integer `n` if `one` holds and 0 otherwise: bits that are 1 in `n` are `one`. -/
def literal (bitwidth : Nat) (n : Int) (one : Node) : Bits :=
  (encode (literalWidth bitwidth n) n).map fun bit => if bit then one else .const false

/-- Adds pairs of bits from the lowest up. The second of each pair goes through `addend` first;
every position makes its sum before its carry. -/
def ripple (addend : Node → Build Node) : List (Node × Node) → Node → Build Bits
  | [], _ => pure []
  | (a, b) :: rest, carryIn => do
    let b ← addend b
    let sum ← Build.sum a b carryIn
    let carryOut ← Build.carry a b carryIn
    return sum :: (← ripple addend rest carryOut)

end Bits

end IntCircuit
