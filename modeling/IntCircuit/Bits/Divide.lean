import IntCircuit.Bits.Basic

/-!
# Quotients and remainders

Division without restoring. The register holds a partial remainder in twice the bitwidth and one
bit more. Each round guesses the next digit of the quotient from the signs of register and divisor,
doubles the register and subtracts or adds the divisor at its upper half. The guessed digits stand
for 1 and -1, so that at most one correction of the quotient and the remainder is left at the end.

## Main definitions

* `Rounds`, `Rounds.step`: the register, and one round
* `Bits.divisionRounds`: all rounds
* `Correction`: whether and how the result is off by one divisor
* `Bits.div`, `Bits.mod`: quotient and remainder
-/

namespace IntCircuit

/-- What the rounds of a division have found. -/
structure Rounds where
  /-- The partial remainder, the lowest bit first. -/
  register : Bits
  /-- The digits of the quotient, the lowest first. -/
  digits : Bits
  /-- For each partial remainder before a round, the first one first, whether it is not zero. -/
  nonzero : List Node

namespace Rounds

/-- The register before the first round. -/
def start (bitwidth : Nat) (x : Bits) : Rounds :=
  ⟨x.extend (2 * bitwidth + 1), [], []⟩

/-- Round number `i`, with a divisor of one bit more than the bitwidth. The bits of the register
are compared with zero from the one that was lowest at the start. -/
def step (bitwidth : Nat) (divisor : Bits) (r : Rounds) (i : Nat) : Build Rounds := do
  let nonzero ← Build.anyOf (r.register.rotateLeft i)
  let digit ← Build.iff r.register.sign divisor.sign
  let doubled := .const false :: r.register.dropLast
  let upper ← Bits.ripple (Build.xor digit) ((doubled.drop bitwidth).zip divisor) digit
  return ⟨doubled.take bitwidth ++ upper, digit :: r.digits, r.nonzero ++ [nonzero]⟩

end Rounds

/-- What is wrong with the result of the rounds. -/
structure Correction where
  /-- Whether the remainder is off by one divisor. -/
  needed : Node
  /-- Whether remainder and divisor have the same sign, so that the divisor is subtracted. -/
  subtract : Node

namespace Bits

/-- The rounds of a division. -/
def divisionRounds (bitwidth : Nat) (x divisor : Bits) : Build Rounds :=
  (List.range bitwidth).foldlM (Rounds.step bitwidth divisor) (Rounds.start bitwidth x)

/-- The correction after all rounds: needed if some partial remainder was zero, or if the last one
is not zero and its sign is not that of the dividend. -/
def correction (bitwidth : Nat) (x divisor : Bits) (r : Rounds) : Build Correction := do
  let someZero ← Build.not (← Build.allOf r.nonzero)
  let nonzero ← Build.anyOf (r.register.rotateLeft bitwidth)
  let wrongSign ← Build.and (← Build.xor r.register.sign x.sign) nonzero
  let needed ← Build.or someZero wrongSign
  let subtract ← Build.iff r.register.sign divisor.sign
  return ⟨needed, subtract⟩

/-- The quotient of two integers, rounded towards zero. The digits 1 and -1 become bits when they
are moved up by one position with a 1 below; then one is added or subtracted if the remainder needs
a correction. -/
def div (x y : Bits) : Build Bits := do
  let bitwidth := (← get).bitwidth
  let divisor := y.extend (bitwidth + 1)
  let rounds ← divisionRounds bitwidth x divisor
  let fix ← correction bitwidth x divisor rounds
  let moved := .const true :: rounds.digits.dropLast
  let down ← Build.and fix.needed (← Build.not fix.subtract)
  let up ← Build.and fix.needed fix.subtract
  ripple pure (moved.map fun bit => (bit, down)) up

/-- The remainder of two integers; unless it is zero it has the sign of the first. -/
def mod (x y : Bits) : Build Bits := do
  let bitwidth := (← get).bitwidth
  let divisor := y.extend (bitwidth + 1)
  let rounds ← divisionRounds bitwidth x divisor
  let fix ← correction bitwidth x divisor rounds
  let carryIn ← Build.and fix.needed fix.subtract
  let addend := fun d => do Build.and fix.needed (← Build.xor fix.subtract d)
  let fixed ← ripple addend ((rounds.register.drop bitwidth).zip divisor) carryIn
  return fixed.take bitwidth

end Bits

end IntCircuit
