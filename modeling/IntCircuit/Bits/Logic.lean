import IntCircuit.Bits.Basic

/-!
# Bitwise operations

Operations that treat every position alike. Two integers are taken at the width of the wider one.

## Main definitions

* `Bits.not`, `Bits.and`, `Bits.or`, `Bits.xor`: complement and connectives
* `Bits.choose`: one of two integers
* `Bits.joinAll`: a connective over any number of integers
-/

namespace IntCircuit.Bits

/-- Makes one gate for each position of two integers, the lowest first. -/
def zipWith (gate : Node → Node → Build Node) (x y : Bits) : Build Bits :=
  (align (maxWidth x y) x y).mapM fun (a, b) => gate a b

/-- The complement of every bit. -/
def not (x : Bits) : Build Bits :=
  x.mapM Build.not

/-- The bitwise conjunction. -/
def and (x y : Bits) : Build Bits :=
  zipWith Build.and x y

/-- The bitwise disjunction. -/
def or (x y : Bits) : Build Bits :=
  zipWith Build.or x y

/-- The bitwise exclusive disjunction. -/
def xor (x y : Bits) : Build Bits :=
  zipWith Build.xor x y

/-- The first integer if the condition holds, and else the second. -/
def choose (condition : Node) (x y : Bits) : Build Bits :=
  zipWith (Build.ite condition) x y

/-- A connective over an integer and all the others, at the width of the widest. A position that
is decided takes no more inputs. -/
def joinAll (op : Connective) (x : Bits) (others : List Bits) : Build Bits :=
  let width := others.foldl (fun width other => max width other.length) x.length
  (List.range width).mapM fun i =>
    let first := (Junction.empty op).add (x.bit i)
    Build.accumulate (first.addUntilDecided (others.map fun other => other.bit i))

end IntCircuit.Bits
