import IntCircuit.Proofs.Circuit.NormalForm
import IntCircuit.Proofs.Cnf.Encoder
import Mathlib.Algebra.GroupWithZero.Nat
import Mathlib.Data.List.Nodup

/-!
# The shape of a node's clauses

The clauses of a node come in groups, one for each gate that the node is made of, however many ways
lead there, with the groups of smaller gates first. The size of a group is settled by its gate, so
the number of all clauses is a sum over gates. Since gates are in normal form, a clause never names
one variable twice.

## Main definitions

* `Clause.Proper`: clauses whose literals name different variables
* `Node.groupSize`: the number of clauses that define a gate

## Main results

* `Cnf.numVariables_addClauses_le`: the number of variables is the largest that a clause names
* `Circuit.Valid.proper_of_mem_toCnf`: all clauses of a node are proper
* `Circuit.Reachable.toCnf_groups`: groups, numbers and literals
-/

namespace IntCircuit

theorem Cnf.numVariables_addClauses_le {cnf : Cnf} {clauses : List Clause} {limit : Nat} :
    (cnf.addClauses clauses).numVariables ≤ limit ↔
      cnf.numVariables ≤ limit ∧ ∀ clause ∈ clauses, ∀ l ∈ clause, l.natAbs ≤ limit := by
  induction clauses generalizing cnf with
  | nil => simp [addClauses]
  | cons clause rest ih =>
    rw [addClauses, List.foldl_cons, ← addClauses, ih, addClause, Nat.max_le,
      Clause.maxVariable_le, List.forall_mem_cons, and_assoc]

/-! ## Clauses that name different variables -/

/-- The literals of the clause name variables, no two of them the same. -/
structure Clause.Proper (clause : Clause) : Prop where
  ne_zero : ∀ l ∈ clause, l ≠ 0
  nodup : (clause.map Int.natAbs).Nodup

/-- A clause that names some of a list of different labels, a few of them negated, is proper. -/
theorem Clause.Proper.of_sublist {clause : Clause} {labels named : List Int}
    (hpos : ∀ l ∈ labels, 0 < l) (hnodup : labels.Nodup) (hsub : named.Sublist labels)
    (h : clause.map Int.natAbs = named.map Int.natAbs) : clause.Proper := by
  have hnamed (l : Int) (hl : l ∈ named) : 0 < l := hpos l (hsub.subset hl)
  constructor
  · rintro l hl rfl
    obtain ⟨k, hk, hzero⟩ := List.mem_map.mp (h ▸ List.mem_map_of_mem hl)
    have := hnamed k hk
    omega
  · rw [h]
    refine (hnodup.sublist hsub).map_on fun k hk l hl heq => ?_
    have := hnamed k hk
    have := hnamed l hl
    omega

theorem Connective.proper_of_mem_definition {op : Connective} {output : Int} {inputs : List Int}
    (hpos : ∀ l ∈ inputs ++ [output], 0 < l) (hnodup : (inputs ++ [output]).Nodup) {clause : Clause}
    (hclause : clause ∈ op.definition output inputs) : clause.Proper := by
  -- the long clause names all labels, a short one an input and the output
  have hpair {input : Int} (hinput : input ∈ inputs) :
      [input, output].Sublist (inputs ++ [output]) :=
    (List.singleton_sublist.mpr hinput).append_right [output]
  cases op with
  | and =>
    rcases List.mem_cons.mp hclause with rfl | hclause
    · exact .of_sublist hpos hnodup (.refl _) (by simp [Function.comp_def])
    · obtain ⟨input, hinput, rfl⟩ := List.mem_map.mp hclause
      exact .of_sublist hpos hnodup (hpair hinput) (by simp)
  | or =>
    rcases List.mem_cons.mp hclause with rfl | hclause
    · exact .of_sublist hpos hnodup (.refl _) (by simp)
    · obtain ⟨input, hinput, rfl⟩ := List.mem_map.mp hclause
      exact .of_sublist hpos hnodup (hpair hinput) (by simp)

namespace Node

/-- **The clauses of a gate are proper** if its inputs have different labels, none of them its
own. -/
theorem proper_of_mem_definition {n : Node}
    (hpos : ∀ l ∈ n.inputs.map label ++ [n.label], 0 < l)
    (hnodup : (n.inputs.map label ++ [n.label]).Nodup) {clause : Clause}
    (hclause : clause ∈ n.definition) : clause.Proper := by
  cases n with
  | const _ => cases hclause
  | var _ => cases hclause
  | nary tag op inputs => exact Connective.proper_of_mem_definition hpos hnodup hclause
  | not tag input =>
    simp only [definition, List.mem_cons, List.not_mem_nil, or_false] at hclause
    rcases hclause with rfl | rfl <;>
      exact .of_sublist hpos hnodup (.refl _) (by simp [inputs, label])
  | ite tag condition consequent alternative =>
    -- two of the clauses leave out one branch, and two the other
    have hthen : [condition.label, consequent.label, tag.label].Sublist
        [condition.label, consequent.label, alternative.label, tag.label] :=
      ((List.sublist_cons_self _ _).cons_cons _).cons_cons _
    have helse : [condition.label, alternative.label, tag.label].Sublist
        [condition.label, consequent.label, alternative.label, tag.label] :=
      (List.sublist_cons_self _ _).cons_cons _
    simp only [definition, List.mem_cons, List.not_mem_nil, or_false] at hclause
    rcases hclause with rfl | rfl | rfl | rfl
    · exact .of_sublist hpos hnodup hthen (by simp)
    · exact .of_sublist hpos hnodup hthen (by simp)
    · exact .of_sublist hpos hnodup helse (by simp)
    · exact .of_sublist hpos hnodup helse (by simp)

/-- The number of clauses that define a gate: one for each input of a connective and one more, two
for a negation and four for a choice. -/
def groupSize : Node → Nat
  | const _ => 0
  | var _ => 0
  | nary _ _ inputs => inputs.length + 1
  | not _ _ => 2
  | ite _ _ _ _ => 4

theorem length_definition (n : Node) : n.definition.length = n.groupSize := by
  cases n with
  | nary tag op inputs => cases op <;> simp [definition, Connective.definition, groupSize]
  | _ => rfl

end Node

/-! ## The clauses of a node -/

namespace Circuit

variable {c : Circuit} {g n : Node}

namespace Valid

theorem mem_gates_iff (hc : c.Valid) (hn : c.Owns n) : n ∈ c.gates ↔ n.isGate = true := by
  constructor
  · intro hg
    obtain ⟨_, -, htag⟩ := hc.tag_of_mem hg
    cases n <;> first | rfl | cases htag
  · intro hgate
    cases n with
    | const _ => cases hgate
    | var _ => cases hgate
    | _ => exact hn

/-- The inputs of a gate have different labels. -/
theorem nodup_labels_inputs (hc : c.Valid) (hg : g ∈ c.gates) :
    (g.inputs.map Node.label).Nodup := by
  have hirreducible := hc.irreducible hg
  have hown (m : Node) (hm : m ∈ g.inputs) : c.Owns m := (hc.inputs g hg m hm).1
  cases g with
  | const _ => exact .nil
  | var _ => exact .nil
  | nary _ _ inputs => exact hirreducible.2.1
  | not _ input => exact List.nodup_singleton _
  | ite _ condition consequent alternative =>
    -- different nodes have different labels
    exact List.Nodup.map_on
      (fun m hm k hk h => hc.eq_of_label (hown m hm) (hown k hk) h) hirreducible

/-- **All clauses of a node are proper.** -/
theorem proper_of_mem_toCnf (hc : c.Valid) (hn : c.Owns n) (hconst : n.isConst = false)
    {clause : Clause} (hclause : clause ∈ n.toCnf.clauses.toList) : clause.Proper := by
  obtain ⟨gs, hclauses, hmem, -⟩ := hc.toCnf_clauses hn
  rw [hclauses, Node.assertion_of_isConst hconst] at hclause
  rcases List.mem_append.mp hclause with hclause | hclause
  · obtain ⟨g, hg, hclause⟩ := List.mem_flatMap.mp hclause
    obtain ⟨hgate, hng⟩ := (hmem g).mp hg
    refine Node.proper_of_mem_definition ?_ ?_ hclause
    · intro l hl
      rcases List.mem_append.mp hl with hl | hl
      · obtain ⟨m, hm, rfl⟩ := List.mem_map.mp hl
        exact hc.label_pos_of_contains hn hconst (hng.input hm)
      · rw [List.mem_singleton.mp hl]
        exact hc.label_pos_of_contains hn hconst hng
    · refine List.nodup_append.mpr ⟨hc.nodup_labels_inputs hgate, List.nodup_singleton _, ?_⟩
      -- the inputs of a gate have smaller labels than the gate
      intro l hl k hk
      obtain ⟨m, hm, rfl⟩ := List.mem_map.mp hl
      rw [List.mem_singleton.mp hk]
      exact Int.ne_of_lt (hc.inputs g hgate m hm).2
  · rw [List.mem_singleton.mp hclause]
    have hpos : ∀ l ∈ [n.label], 0 < l := fun l hl =>
      List.mem_singleton.mp hl ▸ hc.label_pos hn hconst
    exact .of_sublist hpos (List.nodup_singleton _) (.refl _) rfl

/-- **The largest variable** that the clauses of a node name is the node's label. -/
theorem numVariables_toCnf (hc : c.Valid) (hn : c.Owns n) (hconst : n.isConst = false) :
    n.toCnf.numVariables = n.label.natAbs := by
  have hle_iff {limit : Nat} : n.toCnf.numVariables ≤ limit ↔
      ∀ clause ∈ n.toCnf.clauses.toList, ∀ l ∈ clause, l.natAbs ≤ limit := by
    obtain ⟨gs, heq, -⟩ := hc.toCnf_eq hn
    rw [heq, Cnf.numVariables_addClauses_le, Cnf.toList_addClauses]
    exact and_iff_right (Nat.zero_le limit)
  apply Nat.le_antisymm
  · refine hle_iff.mpr fun clause hclause l hl => ?_
    obtain ⟨m, hm, heq⟩ := hc.exists_contains_of_mem_toCnf hn hconst hclause hl
    have hpos := hc.label_pos_of_contains hn hconst hm
    have hle := hc.label_le_of_contains hn hm
    omega
  · -- the last clause names it
    have hlast : [n.label] ∈ n.toCnf.clauses.toList := by
      obtain ⟨gs, hclauses, -⟩ := hc.toCnf_clauses hn
      rw [hclauses, Node.assertion_of_isConst hconst]
      exact List.mem_append_right _ (List.mem_singleton_self _)
    exact hle_iff.mp (Nat.le_refl _) _ hlast _ (List.mem_singleton_self _)

end Valid

/-- **The clauses of a node are groups, one for each gate**, and its label. On any reachable
circuit, as long as labels last, the gates that a node is made of are listed in such a way that none
is listed twice and each after those that it is made of; the clauses are the definitions of the
gates in that order and then the node's own label, and their number is the sum of the sizes of the
groups and one. The largest variable is the node's label, no literal is zero and no clause names a
variable twice. -/
theorem Reachable.toCnf_groups (hc : c.Reachable) (hl : c.maxLabel ≤ labelLimit) (hn : c.Owns n)
    (hconst : n.isConst = false) :
    (∃ gs : List Node, n.toCnf.clauses.toList = gs.flatMap Node.definition ++ [[n.label]] ∧
      (∀ g, g ∈ gs ↔ g.isGate = true ∧ n.Contains g) ∧ (gs.map Node.label).Nodup ∧
      (gs.Pairwise fun g k => ¬g.Contains k) ∧
      n.toCnf.numClauses = 1 + (gs.map Node.groupSize).sum) ∧
    n.toCnf.numVariables = n.label ∧ n.toCnf.numVariables ≤ c.maxLabel ∧
    ∀ clause ∈ n.toCnf.clauses.toList, clause.Proper := by
  have hvalid := hc.valid hl
  have hpos := hvalid.label_pos hn hconst
  have hle := hvalid.label_le hn
  have hnum := hvalid.numVariables_toCnf hn hconst
  refine ⟨?_, by omega, by omega, fun clause => hvalid.proper_of_mem_toCnf hn hconst⟩
  obtain ⟨gs, hclauses, hmem, hordered⟩ := hvalid.toCnf_clauses hn
  rw [Node.assertion_of_isConst hconst] at hclauses
  refine ⟨gs, hclauses, fun g => ?_, ?_, hordered, ?_⟩
  · rw [hmem]
    exact and_congr_left fun hng => hvalid.mem_gates_iff (hvalid.owns_of_contains hn hng)
  · -- a gate that is listed twice would come after itself
    refine List.Nodup.map_on (fun g hg k hk h => ?_) (hordered.imp fun h => ?_)
    · exact hvalid.gate_eq_of_label ((hmem g).mp hg).1 ((hmem k).mp hk).1 h
    · rintro rfl
      exact h .self
  · have hlength : n.toCnf.numClauses = n.toCnf.clauses.toList.length := rfl
    rw [hlength, hclauses, List.length_append, List.length_flatMap, List.length_singleton,
      Nat.add_comm]
    simp only [Node.length_definition]

/-- In the sum of three variables one gate is met on two ways; its clauses come once. -/
theorem toCnf_groups_of_sum :
    ∃ c : Circuit, ∃ n : Node, c.Reachable ∧ c.maxLabel ≤ labelLimit ∧ c.Owns n ∧
      n.isConst = false ∧ n.toCnf.numClauses = 13 ∧ n.toCnf.numVariables = n.label ∧
      ∃ gs : List Node, (∀ g, g ∈ gs ↔ g.isGate = true ∧ n.Contains g) ∧
        (gs.map Node.groupSize).sum = 12 := by
  let start : Circuit := ⟨0, 3, 4, true, by decide, by decide, by decide, #[], ∅⟩
  let call : GateCall Node := .sum (.var 1) (.var 2) (.var 3)
  have hstart : create 0 3 {} = .ok start := rfl
  have hvars : ∀ n ∈ call.operands, start.Owns n := by
    simp [call, GateCall.operands, Owns, start]
  have hreach := (Reachable.of_create hstart).reaches (.single call hvars)
  have hl : (call.build.run start).2.maxLabel ≤ labelLimit := by decide +kernel
  have hconst : (call.build.run start).1.isConst = false := by decide +kernel
  have hcount : (call.build.run start).1.toCnf.numClauses = 13 := by decide +kernel
  have hensures := GateCall.ensures (create_valid hstart) hvars hl
  generalize call.build.run start = r at *
  obtain ⟨⟨gs, -, hmem, -, -, hsum⟩, hnum, -⟩ := hreach.toCnf_groups hl hensures.2.2.owns hconst
  refine ⟨r.2, r.1, hreach, hl, hensures.2.2.owns, hconst, hcount, hnum, gs, hmem, ?_⟩
  rw [hsum] at hcount
  exact Nat.add_left_cancel hcount

end Circuit

end IntCircuit
