import IntCircuit.Proofs.Circuit.Valid
import Mathlib.Data.Set.Restrict

/-!
# What a node is made of

A node contains itself, its inputs, their inputs and so on. Its value depends on the variables
among them, and in a valid circuit all of them are nodes of the circuit, the larger ones with the
larger labels.

## Main definitions

* `Node.truth`: one step of evaluation
* `Node.Contains`: the nodes that a node is made of
* `Node.vars`, `Node.labels`: the variables and the labels among them

## Main results

* `Node.inputs_induction`: induction from the inputs of a node to the node
* `Node.eval_congr`: the value of a node is settled by the variables it contains
* `Circuit.Valid.owns_of_contains`, `Circuit.Valid.isConst_of_contains`: what a circuit's node
  contains
-/

namespace IntCircuit

namespace Node

theorem sizeOf_lt_of_mem_inputs {n m : Node} (h : m ∈ n.inputs) : sizeOf m < sizeOf n := by
  cases n with
  | const _ => cases h
  | var _ => cases h
  | nary tag op inputs =>
    have : sizeOf m < sizeOf inputs := List.sizeOf_lt_of_mem h
    rw [nary.sizeOf_spec]
    omega
  | not tag input =>
    rw [List.mem_singleton.mp h, not.sizeOf_spec]
    omega
  | ite tag condition consequent alternative =>
    rw [ite.sizeOf_spec]
    simp only [inputs, List.mem_cons, List.not_mem_nil, or_false] at h
    rcases h with rfl | rfl | rfl <;> omega

/-- What passes from the inputs of a node to the node holds of every node. -/
theorem inputs_induction {motive : Node → Prop}
    (step : ∀ n : Node, (∀ m ∈ n.inputs, motive m) → motive n) (n : Node) : motive n :=
  step n fun m _ => inputs_induction step m
termination_by sizeOf n
decreasing_by exact sizeOf_lt_of_mem_inputs ‹_›

/-- The value of a node by the values of its inputs, or of itself if it is a variable. -/
def truth (value : Node → Bool) : Node → Bool
  | const b => b
  | var v => value (var v)
  | nary _ op inputs => op.join (inputs.map value)
  | not _ input => !value input
  | ite _ condition consequent alternative =>
    if value condition then value consequent else value alternative

theorem eval_eq_truth (σ : Nat → Bool) (n : Node) : n.eval σ = n.truth (eval σ) := by
  cases n <;> simp [truth]

theorem truth_congr {f g : Node → Bool} {n : Node} (hvar : n.isVar = false)
    (h : ∀ m ∈ n.inputs, f m = g m) : n.truth f = n.truth g := by
  cases n with
  | const _ => rfl
  | var _ => cases hvar
  | nary _ op inputs => exact congrArg op.join (List.map_congr_left h)
  | not _ input => rw [truth, truth, h input (List.mem_singleton_self _)]
  | ite _ condition consequent alternative =>
    rw [truth, truth, h condition (by simp [inputs]), h consequent (by simp [inputs]),
      h alternative (by simp [inputs])]

/-- The nodes that a node is made of, itself included. -/
inductive Contains (root : Node) : Node → Prop
  | self : Contains root root
  | input {n m : Node} : Contains root n → m ∈ n.inputs → Contains root m

theorem Contains.trans {a b c : Node} (hab : a.Contains b) (hbc : b.Contains c) : a.Contains c := by
  induction hbc with
  | self => exact hab
  | input _ hm ih => exact ih.input hm

theorem contains_of_mem_inputs {n m : Node} (h : m ∈ n.inputs) : n.Contains m :=
  Contains.self.input h

/-- A node contains itself and what its inputs contain. -/
theorem contains_iff {n m : Node} : n.Contains m ↔ m = n ∨ ∃ i ∈ n.inputs, i.Contains m := by
  constructor
  · intro h
    induction h with
    | self => exact .inl rfl
    | @input k m _ hm ih =>
      -- the way down to `k` begins with an input of `n` unless it has not begun
      rcases ih with rfl | ⟨i, hi, hik⟩
      · exact .inr ⟨m, hm, .self⟩
      · exact .inr ⟨i, hi, hik.input hm⟩
  · rintro (rfl | ⟨i, hi, him⟩)
    · exact .self
    · exact (contains_of_mem_inputs hi).trans him

/-- Constants and variables contain themselves only. -/
theorem eq_of_contains {n m : Node} (hn : n.tag? = none) (h : n.Contains m) : m = n := by
  rcases contains_iff.mp h with rfl | ⟨i, hi, -⟩
  · rfl
  · cases n with
    | const _ => cases hi
    | var _ => cases hi
    | _ => cases hn

/-- The variables that a node contains. -/
def vars (n : Node) : Set Nat :=
  {v | n.Contains (.var v)}

/-- The labels of what a node contains. -/
def labels (n : Node) : Set Nat :=
  {l | ∃ m, n.Contains m ∧ m.label = l}

theorem vars_subset_labels (n : Node) : n.vars ⊆ n.labels :=
  fun v hv => ⟨.var v, hv, rfl⟩

/-- **The value of a node is settled by its variables.** -/
theorem eval_congr {σ τ : Nat → Bool} {n : Node} (h : Set.EqOn σ τ n.vars) :
    n.eval σ = n.eval τ := by
  induction n using inputs_induction with
  | step n ih =>
    -- a variable is the one node whose value is not settled by its inputs
    by_cases hvar : n.isVar
    · cases n with
      | var v => rw [eval_var, eval_var, h Contains.self]
      | _ => cases hvar
    · rw [eval_eq_truth, eval_eq_truth]
      refine truth_congr (by simpa using hvar) fun m hm => ih m hm fun v hv => ?_
      exact h ((contains_of_mem_inputs hm).trans hv)

end Node

namespace Circuit.Valid

variable {c : Circuit} {n m : Node}

/-- What a node of a circuit contains are nodes of the circuit. -/
theorem owns_of_contains (hc : c.Valid) (hn : c.Owns n) (h : n.Contains m) : c.Owns m := by
  induction h with
  | self => exact hn
  | input _ hm ih => exact (hc.owns_inputs ih hm).1

/-- A node has the largest label of what it contains. -/
theorem label_le_of_contains (hc : c.Valid) (hn : c.Owns n) (h : n.Contains m) :
    m.label ≤ n.label := by
  induction h with
  | self => exact Int.le_refl _
  | input hk hm ih =>
    -- labels fall from a gate to its inputs
    exact Int.le_trans (Int.le_of_lt (hc.owns_inputs (hc.owns_of_contains hn hk) hm).2) ih

/-- What a node contains beside itself has a smaller label. -/
theorem label_lt_of_input (hc : c.Valid) (hn : c.Owns n) {i : Node} (hi : i ∈ n.inputs)
    (h : i.Contains m) : m.label < n.label :=
  have hin := hc.owns_inputs hn hi
  Int.lt_of_le_of_lt (hc.label_le_of_contains hin.1 h) hin.2

/-- Only constants contain constants. -/
theorem isConst_of_contains (hc : c.Valid) (hn : c.Owns n) (hconst : n.isConst = false)
    (h : n.Contains m) : m.isConst = false := by
  cases h with
  | self => exact hconst
  -- everything else is an input of a gate, and a gate in normal form has no constant input
  | input hk hm => exact (hc.normal_of_owns (hc.owns_of_contains hn hk)).isConst_of_mem_inputs hm

theorem label_pos_of_contains (hc : c.Valid) (hn : c.Owns n) (hconst : n.isConst = false)
    (h : n.Contains m) : 0 < m.label :=
  hc.label_pos (hc.owns_of_contains hn h) (hc.isConst_of_contains hn hconst h)

end Circuit.Valid

end IntCircuit
