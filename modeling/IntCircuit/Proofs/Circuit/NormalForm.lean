import IntCircuit.Proofs.Circuit.History

/-!
# Gates in normal form

No gate of a circuit is one that folding would have avoided, whatever calls have led to it: its
inputs are older than it and none of them decides it, is repeated or is the negation of another.
The labels of the gates are numbers one after another, in the order in which the gates are made.

## Main definitions

* `Node.Irreducible`: gates to which no rule of folding applies

## Main results

* `Circuit.Valid.irreducible`, `Circuit.Valid.inputs_older`: a gate, and what it is made of
* `Circuit.Valid.labels_gates`: the labels of all gates
* `Circuit.Reachable.gates_irreducible`: the gates of every circuit that calls lead to
-/

namespace IntCircuit

namespace Node

/-- A gate to which no rule of folding applies: a connective has at least two inputs, whose labels
are different and none of which is the negation of another; a negation negates no negation; and the
three parts of a choice are different nodes. -/
def Irreducible : Node → Prop
  | const _ => True
  | var _ => True
  | nary _ _ inputs =>
    2 ≤ inputs.length ∧ (inputs.map label).Nodup ∧ ∀ n ∈ inputs, ∀ m ∈ inputs,
      n.notInput? ≠ some m
  | not _ input => input.notInput? = none
  | ite _ condition consequent alternative => [condition, consequent, alternative].Nodup

/-- Lists in which a node and its negation do not meet. -/
theorem notInput?_ne_of_complementary {nodes : List Node} (h : complementary nodes = false)
    {n m : Node} (hn : n ∈ nodes) (hm : m ∈ nodes) : n.notInput? ≠ some m := by
  intro hinput
  have hpair : complementary nodes = true :=
    List.any_eq_true.mpr ⟨n, hn, by simpa [hinput] using ⟨m, hm, rfl⟩⟩
  rw [h] at hpair
  cases hpair

/-- Nodes that are not one are different. -/
theorem ne_of_same_eq_false {n m : Node} (h : n.same m = false) : n ≠ m := by
  rintro rfl
  rw [same_self] at h
  cases h

theorem Normal.irreducible {n : Node} (h : n.Normal) : n.Irreducible := by
  cases n with
  | const _ => trivial
  | var _ => trivial
  | nary _ _ inputs =>
    obtain ⟨hlength, -, hnodup, hpair⟩ := h
    exact ⟨hlength, hnodup, fun n hn m hm => notInput?_ne_of_complementary hpair hn hm⟩
  | not _ input =>
    exact h.2
  | ite _ condition consequent alternative =>
    obtain ⟨-, hcons, halt, hbranch⟩ := h
    simp [Irreducible, ne_of_same_eq_false hcons, ne_of_same_eq_false halt,
      ne_of_same_eq_false hbranch]

end Node

namespace Circuit

variable {c : Circuit}

namespace Valid

theorem irreducible (hc : c.Valid) {g : Node} (hg : g ∈ c.gates) : g.Irreducible :=
  (hc.normal g hg).irreducible

/-- The inputs of a gate are variables, or gates with smaller labels. -/
theorem inputs_older (hc : c.Valid) {g n : Node} (hg : g ∈ c.gates) (hn : n ∈ g.inputs) :
    (∃ v : Nat, n = .var v ∧ 0 < v ∧ v ≤ c.numVariables) ∨ n ∈ c.gates ∧ n.label < g.label := by
  obtain ⟨hown, hlt⟩ := hc.inputs g hg n hn
  rcases hown.cases with ⟨value, rfl⟩ | hvar | ⟨hgate, -⟩
  · -- a gate in normal form has no constant input
    cases (hc.normal g hg).isConst_of_mem_inputs hn
  · exact .inl hvar
  · exact .inr ⟨hgate, hlt⟩

/-- **Labels count the gates**, from the first number after the variables on. -/
theorem labels_gates (hc : c.Valid) :
    c.gates.toList.map Node.label =
      (List.range' (c.numVariables + 1) c.numGates).map Nat.cast := by
  refine List.ext_getElem (by simp [numGates]) fun i hi hi' => ?_
  have hlt : i < c.gates.size := by simpa using hi
  rw [List.getElem_map, List.getElem_map, Array.getElem_toList,
    Node.label_of_tag? (hc.tag i hlt), List.getElem_range', Nat.one_mul]

end Valid

/-- **Gates are in normal form.** On any reachable circuit, as long as labels last, the inputs of a
gate are variables of the circuit or gates with smaller labels, and no rule of folding applies to
it. The labels of the gates are the numbers that follow those of the variables, one for each. -/
theorem Reachable.gates_irreducible (hc : c.Reachable) (hl : c.maxLabel ≤ labelLimit) :
    (∀ g ∈ c.gates, g.isGate = true ∧ g.Irreducible ∧ ∀ n ∈ g.inputs,
      (∃ v : Nat, n = .var v ∧ 0 < v ∧ v ≤ c.numVariables) ∨ n ∈ c.gates ∧ n.label < g.label) ∧
    c.gates.toList.map Node.label =
      (List.range' (c.numVariables + 1) c.numGates).map Nat.cast := by
  have hvalid := hc.valid hl
  refine ⟨fun g hg => ⟨?_, hvalid.irreducible hg, fun n hn => hvalid.inputs_older hg hn⟩,
    hvalid.labels_gates⟩
  obtain ⟨_, -, htag⟩ := hvalid.tag_of_mem hg
  cases g <;> first | rfl | cases htag

/-- The carry of three variables has five gates, with the labels 4 to 8. -/
theorem gates_irreducible_of_carry :
    ∃ c : Circuit, c.Reachable ∧ c.maxLabel ≤ labelLimit ∧
      c.gates.toList.map Node.label = [4, 5, 6, 7, 8] ∧
      ∀ g ∈ c.gates, g.Irreducible ∧ ∀ n ∈ g.inputs,
        (∃ v : Nat, n = .var v ∧ 0 < v ∧ v ≤ c.numVariables) ∨ n ∈ c.gates ∧ n.label < g.label := by
  let start : Circuit := ⟨0, 3, 4, true, by decide, by decide, by decide, #[], ∅⟩
  have hstart : create 0 3 {} = .ok start := rfl
  have hvars : ∀ n ∈ (GateCall.carry (Node.var 1) (.var 2) (.var 3)).operands, start.Owns n := by
    simp [GateCall.operands, Owns, start]
  have hreach := (Reachable.of_create hstart).reaches (.single _ hvars)
  obtain ⟨hgates, hlabels⟩ := hreach.gates_irreducible (by decide)
  exact ⟨_, hreach, by decide, hlabels.trans (by decide), fun g hg => (hgates g hg).2⟩

end Circuit

end IntCircuit
