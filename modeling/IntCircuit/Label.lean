/-!
# Labels

Labels are 32-bit numbers in two's complement. A count of labels that has outgrown the positive ones
goes on with the negative ones, until it comes round to -1 and 0, which are the labels of constants.

## Main definitions

* `labelModulus`, `labelLimit`: how many labels there are, and the largest
* `Label.ofCount`: the label that a count stands for
* `Label.neg`: the label with its sign changed
* `Label.sort`: labels in ascending order
-/

namespace IntCircuit

/-- The number of 32-bit numbers. -/
def labelModulus : Nat := 4294967296

/-- The largest 32-bit number in two's complement. -/
def labelLimit : Nat := 2147483647

/-- Positive labels are far from coming round. -/
theorem lt_labelModulus {n : Nat} (h : n ≤ labelLimit) : n + 1 < labelModulus :=
  Nat.lt_of_le_of_lt (Nat.add_le_add_right h 1) (by decide)

namespace Label

/-- A count read as a 32-bit number in two's complement. -/
def ofCount (n : Nat) : Int :=
  Int.bmod n labelModulus

/-- Up to the limit a count is its own label. -/
theorem ofCount_of_le {n : Nat} (h : n ≤ labelLimit) : ofCount n = n := by
  simp only [ofCount, labelModulus, labelLimit, Int.bmod] at *
  omega

/-- Counts below the number of labels go on with the negative ones after the positive ones. -/
theorem ofCount_eq_ite {n : Nat} (h : n < labelModulus) :
    ofCount n = if n ≤ labelLimit then (n : Int) else (n : Int) - labelModulus := by
  simp only [ofCount, labelModulus, labelLimit, Int.bmod] at *
  omega

/-- **No label is given twice** before the count comes round. -/
theorem ofCount_inj {n m : Nat} (hn : n < labelModulus) (hm : m < labelModulus)
    (h : ofCount n = ofCount m) : n = m := by
  rw [ofCount_eq_ite hn, ofCount_eq_ite hm] at h
  simp only [labelModulus] at *
  split at h <;> split at h <;> omega

/-- A count that has not come round is its own label, or has a label below those of constants. -/
theorem ofCount_of_lt {n : Nat} (hpos : 0 < n) (h : n + 1 < labelModulus) :
    0 < ofCount n ∧ ofCount n = n ∨ ofCount n < -1 := by
  rw [ofCount_eq_ite (Nat.lt_of_succ_lt h)]
  simp only [labelModulus] at *
  split <;> omega

/-- The negation of a label. The least 32-bit number has none of its own, and stays as it is. -/
def neg (label : Int) : Int :=
  if label = -(labelLimit + 1) then label else -label

theorem neg_of_pos {label : Int} (h : 0 < label) : neg label = -label := by
  refine if_neg fun hleast => ?_
  omega

@[simp] theorem natAbs_neg (label : Int) : (neg label).natAbs = label.natAbs := by
  rw [neg]
  split
  · rfl
  · exact Int.natAbs_neg label

/-- On 32-bit numbers it is the negation of two's complement. -/
theorem neg_eq_bmod {label : Int} (hleast : -(labelLimit + 1) ≤ label) (hle : label ≤ labelLimit) :
    neg label = Int.bmod (-label) labelModulus := by
  simp only [neg, labelModulus, labelLimit, Int.bmod] at *
  omega

example : neg (ofCount (labelLimit + 1)) = ofCount (labelLimit + 1) := by decide

/-- Puts a label in its place among labels in ascending order. -/
def insert (label : Int) : List Int → List Int
  | [] => [label]
  | first :: rest => if label ≤ first then label :: first :: rest else first :: insert label rest

/-- Labels in ascending order. -/
def sort : List Int → List Int
  | [] => []
  | label :: rest => insert label (sort rest)

end Label

end IntCircuit
