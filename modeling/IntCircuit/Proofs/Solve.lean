import IntCircuit.Proofs.Cnf.Models
import IntCircuit.Proofs.Model
import IntCircuit.Proofs.Sat.BackEnd
import IntCircuit.Solve

/-!
# Solving with a lawful back end

The clauses of a node mention labels of its circuit only, and enough of them are declared first. So
a sound and complete back end takes all of them, finds out whether they agree with what it was
given before, and the values it then gives to the variables are those of a model.

## Main results

* `solveWith_const`: a constant is settled without the back end
* `BackEnd.Ran.solveWith`: what a search does to the history of a lawful back end, and what its
  answer says about it
-/

namespace IntCircuit

variable {β : Type} [BackEnd β] {c : Circuit} {n : Node}

theorem Node.constant?_eq_none (h : n.isConst = false) : n.constant? = none :=
  Option.isNone_iff_eq_none.mp (Option.isSome_eq_false_iff.mp h)

/-- The clauses of a node are over the labels of its circuit. -/
theorem Circuit.Valid.within_toCnf (hc : c.Valid) (hn : c.Owns n) (hconst : n.isConst = false) :
    ∀ clause ∈ n.toCnf.clauses.toList, clause.Within c.maxLabel := by
  intro clause hclause l hl
  obtain ⟨m, hm, heq⟩ := hc.exists_contains_of_mem_toCnf hn hconst hclause hl
  have hpos := hc.label_pos_of_contains hn hconst hm
  have hle := hc.label_le (hc.owns_of_contains hn hm)
  omega

namespace Solution

theorem isSat_eq_true {solution : Solution} :
    solution.isSat = true ↔ ∃ model, solution.model? = some model := by
  cases solution <;> simp [isSat, model?]

end Solution

/-- A model made from the values of the first variables. -/
theorem Model.variableValue_ofAssignment {τ : Nat → Bool} {count v : Nat} (hpos : 0 < v)
    (hle : v ≤ count) :
    (ofAssignment ((List.range' 1 count).map τ).toArray).variableValue v = τ v := by
  have hlt : v - 1 < count := by omega
  have hv : 1 + (v - 1) = v := by omega
  simp [variableValue, ofAssignment, hlt, hv]

/-- The values of the variables are enough for the value of a node. -/
theorem Circuit.Valid.eval_ofAssignment (hc : c.Valid) (hn : c.Owns n) (τ : Nat → Bool) :
    n.eval (Model.ofAssignment
      ((List.range' 1 c.numVariables).map τ).toArray).variableValue = n.eval τ :=
  Node.eval_congr fun _ hv =>
    have hvar := hc.owns_of_contains hn hv
    Model.variableValue_ofAssignment hvar.1 hvar.2

/-- **A constant is settled without the back end.** -/
theorem solveWith_const (c : Circuit) (value : Bool) (s : β) :
    Runs (solveWith c (.const value)) s
      (if value then .sat (.ofAssignment #[]) {} else .unsat {}) s := by
  cases value <;> rfl

/-- **A lawful back end settles a node together with what it was given before.** -/
theorem BackEnd.Ran.solveWith {start s : β} {declared : Nat} {clauses : List Clause}
    (hlawful : BackEnd.Lawful start) (h : BackEnd.Ran start declared clauses s)
    (hwithin : ∀ clause ∈ clauses, clause.Within declared) (hc : c.Valid) (hn : c.Owns n)
    (hconst : n.isConst = false) :
    ∃ solution s₁, Runs (solveWith c n) s solution s₁ ∧
      BackEnd.Ran start (declared + max n.toCnf.numVariables c.maxLabel)
        (clauses ++ n.toCnf.clauses.toList) s₁ ∧
      (solution.isSat = false →
        ∀ τ, ¬∀ clause ∈ clauses ++ n.toCnf.clauses.toList, clause.holds τ = true) ∧
      ∀ model, solution.model? = some model →
        ∃ τ, (∀ clause ∈ clauses ++ n.toCnf.clauses.toList, clause.holds τ = true) ∧
          model = .ofAssignment ((List.range' 1 c.numVariables).map τ).toArray := by
  let count := max n.toCnf.numVariables c.maxLabel
  have hnew : ∀ clause ∈ n.toCnf.clauses.toList, clause.Within (declared + count) :=
    fun clause hclause => (hc.within_toCnf hn hconst clause hclause).mono (by omega)
  obtain ⟨s₁, hadd, hran⟩ := (h.addVariables count).forM_addClause hlawful hnew
    fun clause hclause => (hc.within_toCnf hn hconst clause hclause).mono hc.maxLabel_le
  have hall : ∀ clause ∈ clauses ++ n.toCnf.clauses.toList, clause.Within (declared + count) := by
    intro clause hclause
    rcases List.mem_append.mp hclause with hclause | hclause
    · exact (hwithin clause hclause).mono (by omega)
    · exact hnew clause hclause
  obtain ⟨answer, s₂, hsolve, hfalse, htrue⟩ := hlawful.decides hran hall
  have hnone := Node.constant?_eq_none hconst
  have hcounted := Circuit.labelCount_of_le hc.maxLabel_le
  let statistics : Statistics := ⟨count, n.toCnf.numClauses % labelModulus⟩
  cases answer with
  | false =>
    refine ⟨.unsat statistics, s₂, ?_, hran.solve hsolve, fun _ => hfalse rfl,
      fun model hmodel => by cases hmodel⟩
    rw [IntCircuit.solveWith, hnone, hcounted]
    exact (Runs.lift _ s).bind (hadd.bind (hsolve.bind (.pure _ s₂)))
  | true =>
    -- the values that make the clauses true are kept for the variables of the circuit only
    obtain ⟨τ, hτ, hvalues⟩ := htrue rfl
    have hvars : ∀ v ∈ List.range' 1 c.numVariables, 0 < v ∧ v ≤ declared + count := by
      intro v hv
      rw [List.mem_range'_1] at hv
      have hle : c.numVariables ≤ count :=
        Nat.le_trans (Nat.le_add_right _ _) (Nat.le_max_right _ _)
      omega
    refine ⟨.sat (.ofAssignment ((List.range' 1 c.numVariables).map τ).toArray) statistics, _, ?_,
      (hran.solve hsolve).mapM_valueOf (List.range' 1 c.numVariables),
      fun h => (by cases h), fun model hmodel => ⟨τ, hτ, (Option.some.inj hmodel).symm⟩⟩
    rw [IntCircuit.solveWith, hnone, hcounted, ← hvalues _ hvars]
    exact (Runs.lift _ s).bind (hadd.bind (hsolve.bind
      ((Runs.mapM_lift BackEnd.valueOf _ s₂).bind (.pure _ _))))

end IntCircuit
