import IntCircuit.Operator
import Std.Data.TreeMap.Basic

/-!
# Signatures

Two gates with one signature compute the same, so a circuit that shares gates keeps one of them.
Signatures have a total order, so that gates can be looked up by them.

## Main definitions

* `Signature`: the operator of a gate and the labels of its inputs
* `Signature.code`: a signature as a list of numbers, which orders signatures

## Main results

* `Signature.code_injective`: different signatures have different codes
-/

namespace IntCircuit

/-- The operator of a gate and the labels of its inputs, in ascending order where order does not
matter. -/
inductive Signature where
  | nary (op : Connective) (labels : List Int)
  | not (label : Int)
  | ite (condition consequent alternative : Int)
  deriving DecidableEq, Repr

namespace Signature

/-- A signature as a list of numbers, the first of which tells the operator. -/
def code : Signature → List Int
  | nary .and labels => 0 :: labels
  | nary .or labels => 1 :: labels
  | not label => [2, label]
  | ite condition consequent alternative => [3, condition, consequent, alternative]

theorem code_injective {s t : Signature} (h : s.code = t.code) : s = t := by
  rcases s with ⟨_ | _, _⟩ | _ | ⟨_, _, _⟩ <;> rcases t with ⟨_ | _, _⟩ | _ | ⟨_, _, _⟩ <;>
    simp_all [code]

/-- Signatures are ordered as their codes are. -/
instance : Ord Signature where
  compare := compareOn code

instance : Std.TransOrd Signature :=
  inferInstanceAs (Std.TransCmp (compareOn code))

instance : Std.LawfulEqOrd Signature where
  eq_of_compare h := code_injective (Std.LawfulEqOrd.eq_of_compare h)

end Signature

end IntCircuit
