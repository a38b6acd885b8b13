import IntCircuit.Proofs.Solve

/-!
# How far labels last

A circuit counts its gates without an end, but a label is a number of 32 bits. Up to the largest
one every gate has a label of its own above the variables, and literals name what they are meant
to. The next gate has a negative label, for the number of variables is bounded when a circuit is
made and the number of gates is not.

## Main results

* `Build.Grows.counted`, `Circuit.Reachable.counted`: labels count the gates, also after the last
  positive one
* `Circuit.Reachable.maxLabel_le_iff`: labels are as they should be until they run out, and no
  longer
-/

namespace IntCircuit

namespace Circuit

variable {c d : Circuit}

/-- **A new gate is counted.** -/
theorem Counted.intern (hc : c.Counted) {s : Signature} {make : Tag → Node}
    (htag : ∀ t : Tag, (make t).tag? = some t) : (c.intern s make).2.Counted := by
  rw [Circuit.intern]
  split
  · exact hc
  · exact hc.push s (htag c.nextTag)

end Circuit

namespace Build

variable {α : Type} {m : Build α}

/-- **Whatever makes gates, they are counted.** -/
theorem Grows.counted [hm : Grows m] {c : Circuit} (hc : c.Counted) : (m.run c).2.Counted := by
  induction hm generalizing c with
  | pure a => exact hc
  | intern htag => exact hc.intern htag
  | look _ _ ih => exact ih c hc
  | bind _ _ ihm ihf => exact ihf _ (ihm hc)

end Build

namespace Circuit

variable {c d : Circuit}

theorem Reaches.counted (h : c.Reaches d) (hc : c.Counted) : d.Counted := by
  induction h with
  | refl => exact hc
  | call _ _ _ ih => exact Build.Grows.counted ih

/-- The gates of a circuit are counted, however many there are. -/
theorem Reachable.counted (hc : c.Reachable) : c.Counted := by
  obtain ⟨_, _, _, start, hstart, hreach⟩ := hc
  obtain ⟨-, -, -, -, hgates, -⟩ := create_eq_ok hstart
  exact hreach.counted fun i hi => by simp [hgates] at hi

/-- The gate after the last positive label has the least number of 32 bits. -/
theorem Counted.exists_label_neg (hc : c.Counted) (hl : labelLimit < c.maxLabel) :
    ∃ g ∈ c.gates, g.label = -2147483648 := by
  have hvars := c.numVariables_lt
  rw [maxLabel, numGates] at hl
  have hi : labelLimit - c.numVariables < c.gates.size := by omega
  refine ⟨_, Array.getElem_mem hi, ?_⟩
  have hcount : c.numVariables + 1 + (labelLimit - c.numVariables) = labelLimit + 1 := by omega
  rw [Node.label_of_tag? (hc _ hi), hcount]
  rfl

/-- The clauses of any node are over labels of the circuit. -/
theorem Valid.within_limit (hc : c.Valid) {n : Node} (hn : c.Owns n) :
    ∀ clause ∈ n.toCnf.clauses.toList, clause.Within labelLimit := by
  intro clause hclause
  cases hconst : n.isConst with
  | false => exact (hc.within_toCnf hn hconst clause hclause).mono hc.maxLabel_le
  | true =>
    -- a constant has at most the empty clause
    obtain ⟨value, rfl⟩ := Node.eq_const_of_isConst hconst
    rw [Node.toCnf, Encoder.visit, Encoder.add, Cnf.toList_addClauses] at hclause
    cases value
    · rw [List.mem_singleton.mp hclause]
      exact fun _ h => (List.not_mem_nil h).elim
    · cases hclause

/-- **Labels are as they should be until they run out, and no longer.** A reachable circuit has used
no more numbers than there are positive labels if and only if the label of every gate is greater
than those of the variables and is no other node's label, and all literals in the clauses of nodes
are numbers with 31 bits, not zero, and their negatives. -/
theorem Reachable.maxLabel_le_iff (hc : c.Reachable) :
    c.maxLabel ≤ labelLimit ↔
      (∀ g ∈ c.gates, (c.numVariables : Int) < g.label ∧
        ∀ n, c.Owns n → n.label = g.label → n = g) ∧
      ∀ n, c.Owns n → ∀ clause ∈ n.toCnf.clauses.toList, clause.Within labelLimit := by
  constructor
  · intro hl
    have hvalid := hc.valid hl
    refine ⟨fun g hg => ⟨(hvalid.label_of_mem hg).1, fun n hn hlabel => ?_⟩,
      fun n hn => hvalid.within_limit hn⟩
    obtain ⟨_, -, htag⟩ := hvalid.tag_of_mem hg
    exact hvalid.eq_of_label hn ((owns_gate htag).mpr hg) hlabel
  · rintro ⟨hgates, -⟩
    by_contra hl
    obtain ⟨g, hg, hneg⟩ := hc.counted.exists_label_neg (Nat.not_le.mp hl)
    have hpos := (hgates g hg).1
    omega

/-- A circuit with as many variables as there can be has one positive label left for a gate. -/
theorem maxLabel_le_iff_of_last_label :
    ∃ c : Circuit, c.Reachable ∧ c.numVariables = 2147483646 ∧
      c.gates.toList.map Node.label = [2147483647] ∧ c.maxLabel ≤ labelLimit ∧
      ∀ n, c.Owns n → ∀ clause ∈ n.toCnf.clauses.toList, clause.Within labelLimit := by
  let start : Circuit := ⟨0, 2147483646, 4, true, by decide, by decide, by decide, #[], ∅⟩
  have hstart : create 0 2147483646 {} = .ok start := rfl
  have hvars : ∀ n ∈ (GateCall.and (Node.var 1) (.var 2)).operands, start.Owns n := by
    simp [GateCall.operands, Owns, start]
  have hreach := (Reachable.of_create hstart).reaches (.single _ hvars)
  have hl : ((GateCall.and (Node.var 1) (.var 2)).build.run start).2.maxLabel ≤ labelLimit := by
    decide
  exact ⟨_, hreach, rfl, by decide, hl, (hreach.maxLabel_le_iff.mp hl).2⟩

/-- **A second gate** of that circuit has a negative label. -/
theorem label_neg_after_last_label :
    ∃ c : Circuit, c.Reachable ∧ c.numVariables = 2147483646 ∧
      c.gates.toList.map Node.label = [2147483647, -2147483648] := by
  let start : Circuit := ⟨0, 2147483646, 4, true, by decide, by decide, by decide, #[], ∅⟩
  have hstart : create 0 2147483646 {} = .ok start := rfl
  have hvars : ∀ n ∈ [Node.var 1, .var 2], start.Owns n := by
    simp [Owns, start]
  have hreach : start.Reaches ((GateCall.or (Node.var 1) (.var 2)).build.run
      ((GateCall.and (Node.var 1) (.var 2)).build.run start).2).2 :=
    (Reaches.single (.and (.var 1) (.var 2)) hvars).call (.or (.var 1) (.var 2))
      fun n hn => (hvars n hn).mono (Build.Grows.grown start)
  exact ⟨_, (Reachable.of_create hstart).reaches hreach, rfl, by decide⟩

end Circuit

end IntCircuit
