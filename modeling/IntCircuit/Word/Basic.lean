import IntCircuit.Workspace

/-!
# Words

A word is an integer of one circuit: the number of the circuit and the bits.

## Main definitions

* `Word`, `Word.width`, `Word.bit`, `Word.value`, `Word.text`
* `Circuit.literal`, `Circuit.literalIf`, `Circuit.wordOfBits`, `Circuit.wordVariable`: the words of
  a circuit
* `Circuit.fullBits`, `Circuit.fullBit`: a word read at full bitwidth
-/

namespace IntCircuit

/-- An integer of one circuit, the lowest bit first. -/
structure Word where
  owner : Nat
  bits : Bits

namespace Word

/-- The number of stored bits. -/
def width (x : Word) : Nat :=
  x.bits.length

/-- The bit at a position; past the width it is the sign. -/
def bit (x : Word) (i : Nat) : Node :=
  x.bits.bit i

/-- Whether every bit is a constant. -/
def isConst (x : Word) : Bool :=
  x.bits.isConst

/-- The integer that a word of constants stands for. -/
def value (x : Word) : Except Fault Int :=
  match x.bits.constants? with
  | some values => .ok (decode values)
  | none => .error (.notConstant x.bits.labels)

/-- The labels of the bits as a text. -/
def text (x : Word) : String :=
  labelList x.bits.labels

end Word

namespace Circuit

/-- The integer `n` if `one` holds, and else 0, wrapped to the bitwidth. -/
def literalIf (c : Circuit) (n : Int) (one : Node) : Word :=
  ⟨c.id, Bits.literal c.bitwidth n one⟩

/-- The integer `n`, wrapped to the bitwidth. -/
def literal (c : Circuit) (n : Int) : Word :=
  c.literalIf n (.const true)

/-- The word of given bits. -/
def wordOfBits (c : Circuit) (bits : Bits) : Except Fault Word :=
  if 0 < bits.length ∧ bits.length ≤ c.bitwidth then .ok ⟨c.id, bits⟩
  else .error (.wordWidth c.bitwidth bits.length)

/-- The word whose bits are the variables from `start` up to, and without, `stop`. That the range
holds variables of the circuit is judged before its length is. -/
def wordVariable (c : Circuit) (start stop : Nat) : Except Fault Word :=
  if start = 0 ∨ stop ≤ start ∨ c.numVariables < stop - 1 then
    .error (.variableRange start stop c.numVariables)
  else if c.bitwidth < stop - start then .error (.wordWidth c.bitwidth (stop - start))
  else .ok ⟨c.id, (List.range' start (stop - start)).map .var⟩

/-- The bits of a word over the whole bitwidth. -/
def fullBits (c : Circuit) (x : Word) : Bits :=
  (List.range c.bitwidth).map x.bit

/-- One of the bits of a word over the whole bitwidth. -/
def fullBit (c : Circuit) (x : Word) (i : Nat) : Except Fault Node :=
  if i < c.bitwidth then .ok (x.bit i) else .error (.bitOutOfRange i c.bitwidth)

end Circuit

end IntCircuit
