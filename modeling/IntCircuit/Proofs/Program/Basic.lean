import IntCircuit.Proofs.Bits.Logic
import IntCircuit.Proofs.Bits.Quotient
import IntCircuit.Proofs.Circuit.Ensures
import IntCircuit.Word.Operations
import Mathlib.Data.Int.Bitwise
import Mathlib.Data.Nat.Log
import Mathlib.Logic.Function.Basic

/-!
# Programs

A program makes nodes and words of one circuit, one operation after another, out of those that it
has made before. A formula is a program that makes the parts first; a part that occurs twice may be
made once. Read over truth values and integers, without any circuit, the same program says what its
results stand for.

## Main definitions

* `Program`: operations on registers
* `Program.run`: the nodes and words that the operations make
* `Program.Fits`: the variables that a program uses are those of the circuit
* `Program.interpret`: the truth values and integers that they stand for
-/

namespace IntCircuit

/-- Registers of two kinds: for nodes and words, or for truth values and integers. -/
@[ext] structure Registers (ν ω : Type) where
  nodes : Nat → ν
  words : Nat → ω

namespace Registers

variable {ν ω : Type}

/-- The registers with another node. -/
def setNode (r : Registers ν ω) (target : Nat) (n : ν) : Registers ν ω :=
  { r with nodes := Function.update r.nodes target n }

/-- The registers with another word. -/
def setWord (r : Registers ν ω) (target : Nat) (x : ω) : Registers ν ω :=
  { r with words := Function.update r.words target x }

/-- The words stay words of one circuit. -/
theorem owner_setWord {r : Registers ν Word} {id : Nat} (howner : ∀ i, (r.words i).owner = id)
    {z : Word} (hz : z.owner = id) (target i : Nat) :
    ((r.setWord target z).words i).owner = id := by
  by_cases hi : i = target
  · subst hi
    simpa [setWord] using hz
  · simpa [setWord, hi] using howner i

/-- All registers at first: false, and 0 in one bit. -/
def start (id : Nat) : Registers Node Word :=
  ⟨fun _ => .const false, fun _ => ⟨id, [.const false]⟩⟩

/-- What registers stand for at first. -/
def zero : Registers Bool Int :=
  ⟨fun _ => false, fun _ => 0⟩

end Registers

/-! ## Operations -/

/-- Operations on one word. -/
inductive UnaryOp where
  | neg
  | abs
  | signum
  | not

/-- Operations on two words. -/
inductive BinaryOp where
  | add
  | sub
  | mul
  | div
  | mod
  | shiftLeft
  | shiftRight
  | shiftRightSigned
  | and
  | or
  | xor

/-- Operations on any number of words. -/
inductive FoldOp where
  | sum
  | product
  | join (op : Connective)

/-- Comparisons of two words. -/
inductive Relation where
  | eq
  | ne
  | lt
  | le
  | gt
  | ge

/-- Operations that make a node, on the registers of these numbers. -/
inductive NodeOp where
  | const (value : Bool)
  | var (label : Int)
  | relation (op : Relation) (x y : Nat)
  | call (gates : GateCall Nat)

/-- Operations that make a word, on the registers of these numbers. -/
inductive WordOp where
  | literal (n : Int)
  | literalIf (n : Int) (one : Nat)
  | range (start stop : Nat)
  | unary (op : UnaryOp) (x : Nat)
  | binary (op : BinaryOp) (x y : Nat)
  | choose (condition x y : Nat)
  | fold (op : FoldOp) (x : Nat) (others : List Nat)

/-- An operation, with the register for its result. -/
inductive Instruction where
  | node (target : Nat) (op : NodeOp)
  | word (target : Nat) (op : WordOp)

/-- Operations in the order in which they are done. -/
abbrev Program := List Instruction

/-! ## Making nodes and words -/

def UnaryOp.run : UnaryOp → Word → Work Word
  | neg => Word.neg
  | abs => Word.abs
  | signum => Word.signum
  | not => Word.not

def BinaryOp.run : BinaryOp → Word → Word → Work Word
  | add => Word.add
  | sub => Word.sub
  | mul => Word.mul
  | div => Word.div
  | mod => Word.mod
  | shiftLeft => Word.shiftLeft
  | shiftRight => Word.shiftRight
  | shiftRightSigned => Word.shiftRightSigned
  | and => Word.and
  | or => Word.or
  | xor => Word.xor

def FoldOp.run : FoldOp → Word → List Word → Work Word
  | sum => Word.sumAll
  | product => Word.productAll
  | join op => Word.joinAll op

def Relation.run : Relation → Word → Word → Work Node
  | eq => Word.eq
  | ne => Word.ne
  | lt => Word.lt
  | le => Word.le
  | gt => Word.gt
  | ge => Word.ge

/-- The node that an operation makes in the circuit at the number `id`. -/
def NodeOp.run (id : Nat) (r : Registers Node Word) : NodeOp → Work Node
  | const value => pure (.const value)
  | var label => do MonadExcept.ofExcept ((← Work.circuit id).var label)
  | relation op x y => op.run (r.words x) (r.words y)
  | call gates => Work.build id (gates.map r.nodes).build

/-- The word that an operation makes in the circuit at the number `id`. -/
def WordOp.run (id : Nat) (r : Registers Node Word) : WordOp → Work Word
  | literal n => do return (← Work.circuit id).literal n
  | literalIf n one => do return (← Work.circuit id).literalIf n (r.nodes one)
  | range start stop => do MonadExcept.ofExcept ((← Work.circuit id).wordVariable start stop)
  | unary op x => op.run (r.words x)
  | binary op x y => op.run (r.words x) (r.words y)
  | choose condition x y => Word.choose (r.nodes condition) (r.words x) (r.words y)
  | fold op x others => op.run (r.words x) (others.map r.words)

def Instruction.run (id : Nat) (r : Registers Node Word) :
    Instruction → Work (Registers Node Word)
  | node target op => do return r.setNode target (← op.run id r)
  | word target op => do return r.setWord target (← op.run id r)

/-- The registers after all operations of a program. -/
def Program.run (id : Nat) (p : Program) (r : Registers Node Word) : Work (Registers Node Word) :=
  p.foldlM (Instruction.run id) r

/-! ## Variables -/

/-- A single variable has to be one of the circuit's. -/
def NodeOp.Fits (numVariables : Nat) : NodeOp → Prop
  | var label => 0 < label ∧ label ≤ numVariables
  | _ => True

/-- A range of variables has to be one of the circuit's, and no longer than the bitwidth. -/
def WordOp.Fits (numVariables bitwidth : Nat) : WordOp → Prop
  | range start stop =>
    0 < start ∧ start < stop ∧ stop - 1 ≤ numVariables ∧ stop - start ≤ bitwidth
  | _ => True

def Instruction.Fits (numVariables bitwidth : Nat) : Instruction → Prop
  | node _ op => op.Fits numVariables
  | word _ op => op.Fits numVariables bitwidth

/-- The variables of a program are those of a circuit with this many of them. -/
def Program.Fits (numVariables bitwidth : Nat) (p : Program) : Prop :=
  ∀ i ∈ p, i.Fits numVariables bitwidth

/-! ## Truth values and integers -/

def UnaryOp.onInt : UnaryOp → Int → Int
  | neg, m => -m
  | abs, m => |m|
  | signum, m => m.sign
  | not, m => Int.lnot m

/-- By how much a shift moves, for an amount that may be negative or more than the bitwidth. -/
def shiftDistance (bitwidth : Nat) (amount : Int) : Nat :=
  (amount % 2 ^ Nat.clog 2 bitwidth).toNat

/-- Two integers, before the result is wrapped to the bitwidth. A shift to lower positions that
takes in zeros is of the bits as they are without a sign. -/
def BinaryOp.onInt (bitwidth : Nat) : BinaryOp → Int → Int → Int
  | add, m, n => m + n
  | sub, m, n => m - n
  | mul, m, n => m * n
  | div, m, n => quotient m n
  | mod, m, n => m.tmod n
  | shiftLeft, m, n => m * 2 ^ shiftDistance bitwidth n
  | shiftRight, m, n => m % 2 ^ bitwidth / 2 ^ shiftDistance bitwidth n
  | shiftRightSigned, m, n => m / 2 ^ shiftDistance bitwidth n
  | and, m, n => Int.land m n
  | or, m, n => Int.lor m n
  | xor, m, n => Int.xor m n

def FoldOp.onInt : FoldOp → Int → Int → Int
  | sum => (· + ·)
  | product => (· * ·)
  | join op => op.onInt

def Relation.holds : Relation → Int → Int → Bool
  | eq, m, n => decide (m = n)
  | ne, m, n => decide (m ≠ n)
  | lt, m, n => decide (m < n)
  | le, m, n => decide (m ≤ n)
  | gt, m, n => decide (m > n)
  | ge, m, n => decide (m ≥ n)

/-- The truth value of an operation when variable `v` has the value `σ v`. -/
def NodeOp.interpret (σ : Nat → Bool) (r : Registers Bool Int) : NodeOp → Bool
  | const value => value
  | var label => σ label.toNat
  | relation op x y => op.holds (r.words x) (r.words y)
  | call gates => gates.truth r.nodes

/-- The integer of an operation when variable `v` has the value `σ v`. -/
def WordOp.interpret (bitwidth : Nat) (σ : Nat → Bool) (r : Registers Bool Int) : WordOp → Int
  | literal n => wrap bitwidth n
  | literalIf n one => if r.nodes one then wrap bitwidth n else 0
  | range start stop => decode ((List.range' start (stop - start)).map σ)
  | unary op x => wrap bitwidth (op.onInt (r.words x))
  | binary op x y => wrap bitwidth (op.onInt bitwidth (r.words x) (r.words y))
  | choose condition x y => if r.nodes condition then r.words x else r.words y
  | fold op x others => wrap bitwidth ((others.map r.words).foldl op.onInt (r.words x))

def Instruction.interpret (bitwidth : Nat) (σ : Nat → Bool) (r : Registers Bool Int) :
    Instruction → Registers Bool Int
  | node target op => r.setNode target (op.interpret σ r)
  | word target op => r.setWord target (op.interpret bitwidth σ r)

/-- What the registers stand for after all operations of a program. -/
def Program.interpret (bitwidth : Nat) (σ : Nat → Bool) (p : Program) : Registers Bool Int :=
  p.foldl (Instruction.interpret bitwidth σ) .zero

end IntCircuit
