import IntCircuit.Bits.Add
import IntCircuit.Bits.Compare
import IntCircuit.Bits.Divide
import IntCircuit.Bits.Multiply
import IntCircuit.Bits.Shift
import IntCircuit.Word.Basic
import IntCircuit.Word.Tree

/-!
# Operations on words

The operations of `Bits` on words of a workspace. Words that meet have to be of one circuit; this is
judged before any gate is made. Sums and products of many words meet two at a time, so there the
judgement comes between gates.

## Main definitions

* `Word.eq`, `Word.ne`, `Word.lt`, `Word.le`, `Word.gt`, `Word.ge`
* `Word.add`, `Word.sub`, `Word.mul`, `Word.div`, `Word.mod`, `Word.neg`, `Word.abs`, `Word.signum`
* `Word.shiftLeft`, `Word.shiftRight`, `Word.shiftRightSigned`
* `Word.not`, `Word.and`, `Word.or`, `Word.xor`, `Word.choose`
* `Word.sumAll`, `Word.productAll`, `Word.joinAll`
-/

namespace IntCircuit.Word

/-- Two words have to be of one circuit. -/
def requireSame (x y : Word) : Work Unit :=
  if x.owner = y.owner then pure () else throw (.foreignWord x.bits.labels y.bits.labels)

/-- A word computed from one word. -/
def unary (op : Bits → Build Bits) (x : Word) : Work Word := do
  return ⟨x.owner, ← Work.build x.owner (op x.bits)⟩

/-- A word computed from two words of one circuit. -/
def binary (op : Bits → Bits → Build Bits) (x y : Word) : Work Word := do
  requireSame x y
  return ⟨x.owner, ← Work.build x.owner (op x.bits y.bits)⟩

/-- A node computed from two words of one circuit. -/
def relation (op : Bits → Bits → Build Node) (x y : Word) : Work Node := do
  requireSame x y
  Work.build x.owner (op x.bits y.bits)

/-- Whether two words are equal. -/
def eq (x y : Word) : Work Node :=
  relation Bits.eq x y

/-- Whether two words differ. -/
def ne (x y : Word) : Work Node :=
  relation Bits.ne x y

/-- Whether the first word is less than the second. -/
def lt (x y : Word) : Work Node :=
  relation Bits.lt x y

/-- Whether the first word is at most the second. -/
def le (x y : Word) : Work Node :=
  relation Bits.le x y

/-- Whether the first word is greater than the second. -/
def gt (x y : Word) : Work Node :=
  lt y x

/-- Whether the first word is at least the second. -/
def ge (x y : Word) : Work Node :=
  le y x

/-- The sum. -/
def add (x y : Word) : Work Word :=
  binary Bits.add x y

/-- The difference. -/
def sub (x y : Word) : Work Word :=
  binary Bits.sub x y

/-- The product. -/
def mul (x y : Word) : Work Word :=
  binary Bits.mul x y

/-- The quotient, rounded towards zero. -/
def div (x y : Word) : Work Word :=
  binary Bits.div x y

/-- The remainder. -/
def mod (x y : Word) : Work Word :=
  binary Bits.mod x y

/-- The word with the opposite sign. -/
def neg (x : Word) : Work Word :=
  unary Bits.neg x

/-- The word without its sign. -/
def abs (x : Word) : Work Word :=
  unary Bits.abs x

/-- The sign of a word: -1, 0 or 1. -/
def signum (x : Word) : Work Word :=
  unary Bits.signum x

/-- The first word moved towards higher positions by the second. -/
def shiftLeft (x y : Word) : Work Word :=
  binary Bits.shiftLeft x y

/-- The first word moved towards lower positions by the second; zeros come in. -/
def shiftRight (x y : Word) : Work Word :=
  binary Bits.shiftRight x y

/-- The first word moved towards lower positions by the second; the sign comes in. -/
def shiftRightSigned (x y : Word) : Work Word :=
  binary Bits.shiftRightSigned x y

/-- The bitwise complement. -/
def not (x : Word) : Work Word :=
  unary Bits.not x

/-- The bitwise conjunction. -/
def and (x y : Word) : Work Word :=
  binary Bits.and x y

/-- The bitwise disjunction. -/
def or (x y : Word) : Work Word :=
  binary Bits.or x y

/-- The bitwise exclusive disjunction. -/
def xor (x y : Word) : Work Word :=
  binary Bits.xor x y

/-- The first word if the condition holds, and else the second. -/
def choose (condition : Node) (x y : Word) : Work Word :=
  binary (Bits.choose condition) x y

/-- The sum of a word and all others. -/
def sumAll (x : Word) (others : List Word) : Work Word :=
  combineTree add x others

/-- The product of a word and all others. -/
def productAll (x : Word) (others : List Word) : Work Word :=
  combineTree mul x others

/-- A connective over the bits of a word and all others. -/
def joinAll (op : Connective) (x : Word) (others : List Word) : Work Word := do
  others.forM (requireSame x)
  return ⟨x.owner, ← Work.build x.owner (Bits.joinAll op x.bits (others.map Word.bits))⟩

end IntCircuit.Word
