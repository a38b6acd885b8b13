import IntCircuit.Proofs.Circuit.History
import IntCircuit.Proofs.Program.Run
import IntCircuit.Proofs.Sat.Incremental
import IntCircuit.Proofs.Solve

/-!
# Solving what a program makes

From a new circuit to values of its variables: a program makes nodes and words, one of the nodes
becomes clauses, a back end searches values of the variables for them, and the model answers with
the values of nodes and words. What comes out is what the program says over truth values and
integers.

## Main results

* `Circuit.Valid.solveWith_settles`: a search from a new back end finds a model if there is one
* `Program.solves`: programs and searches agree with the interpretation of the program
-/

namespace IntCircuit

variable {β : Type} [BackEnd β]

/-- **A search from a new back end** ends, and finds values that make the node true if there are
any. -/
theorem Circuit.Valid.solveWith_settles {c : Circuit} (hc : c.Valid) {n : Node} (hn : c.Owns n)
    {start : β} (hlawful : BackEnd.Lawful start) :
    ∃ solution s₁, Runs (solveWith c n) start solution s₁ ∧
      (solution.isSat = true ↔ ∃ σ, n.eval σ = true) ∧
      ∀ model, solution.model? = some model →
        n.eval model.variableValue = true ∧ model.Knows c := by
  cases hconst : n.isConst with
  | true =>
    obtain ⟨value, rfl⟩ := Node.eq_const_of_isConst hconst
    refine ⟨_, start, solveWith_const c value start, ?_, ?_⟩
    · cases value <;> simp [Solution.isSat]
    · intro model hmodel
      cases value with
      | true =>
        cases hmodel
        exact ⟨Node.eval_const _ true, Model.knows_ofAssignment _ c⟩
      | false => cases hmodel
  | false =>
    have hran : BackEnd.Ran start 0 [] start := .start
    obtain ⟨solution, s₁, hruns, -, hunsat, hsat⟩ :=
      hran.solveWith hlawful (fun _ h => (List.not_mem_nil h).elim) hc hn hconst
    rw [List.nil_append] at hunsat hsat
    have hclauses (τ : Nat → Bool) :
        (∀ clause ∈ n.toCnf.clauses.toList, clause.holds τ = true) ↔ n.toCnf.holds τ = true := by
      rw [Cnf.holds_eq_all, List.all_eq_true]
    have hmodel (model : Model) (h : solution.model? = some model) :
        n.eval model.variableValue = true ∧ model.Knows c := by
      obtain ⟨τ, hτ, rfl⟩ := hsat model h
      have htrue := ((hc.holds_toCnf hn hconst).mp ((hclauses τ).mp hτ)).2
      exact ⟨(hc.eval_ofAssignment hn τ).trans htrue, Model.knows_ofAssignment _ c⟩
    refine ⟨solution, s₁, hruns, ⟨?_, ?_⟩, hmodel⟩
    · intro h
      obtain ⟨model, h⟩ := Solution.isSat_eq_true.mp h
      exact ⟨_, (hmodel model h).1⟩
    · rintro ⟨σ, hσ⟩
      -- values that make the node true make its clauses true on the labels of all gates
      by_contra h
      exact hunsat (Bool.eq_false_iff.mpr h) _ ((hclauses _).mpr (hc.holds_complete hn hconst hσ))

/-- **What a program makes, a search settles.** On a new circuit a program over its variables finds
no fault. Unless labels run out, a search for any of its nodes with a sound and complete back end
ends, and tells that there is a model if and only if some values of the variables make the node true
by what the program says. The model is made of such values, and what it answers for the nodes and
words of the program is what the program says for these values. -/
theorem Program.solves {numVariables id : Nat} {settings : Settings} {w w₀ : Workspace}
    (hcreate : Runs (Work.create numVariables settings) w id w₀) {p : Program}
    (hfits : p.Fits numVariables settings.bitwidth) {start : β} (hlawful : BackEnd.Lawful start) :
    ∃ r w₁ c, Runs (p.run id (.start id)) w₀ r w₁ ∧ w₁.circuits[id]? = some c ∧
      (c.maxLabel ≤ labelLimit → ∀ i, ∃ solution s₁,
        Runs (solveWith c (r.nodes i)) start solution s₁ ∧
        (solution.isSat = true ↔ ∃ σ, (p.interpret settings.bitwidth σ).nodes i = true) ∧
        ∀ model, solution.model? = some model →
          (p.interpret settings.bitwidth model.variableValue).nodes i = true ∧
          (∀ j, ((Model.valueOf (r.nodes j)).run model).1 =
            (p.interpret settings.bitwidth model.variableValue).nodes j) ∧
          ∀ j, ((Model.valueOfWord (r.words j)).run model).1 =
            (p.interpret settings.bitwidth model.variableValue).words j) := by
  obtain ⟨c, hc, hw₀⟩ := Work.circuit_of_runs_create hcreate
  obtain ⟨hid, hvars, hbits, -⟩ := Circuit.create_eq_ok hc
  have hfits' : p.Fits c.numVariables c.bitwidth := by rwa [hvars, hbits]
  obtain ⟨r, d, w₁, hrun, hw₁, hcd, -, hstands⟩ :=
    p.ensures_run (r := .start id) (v := fun _ => .zero) hid (fun _ => rfl) hfits' w₀ hw₀
  refine ⟨r, w₁, d, hrun, hw₁, fun hl i => ?_⟩
  obtain ⟨-, hd, hr⟩ := hstands hl ⟨Circuit.create_valid hc, .start c id⟩
  rw [hcd.bitwidth, hbits] at hr
  obtain ⟨solution, s₁, hsolve, hsat, hmodel⟩ := hd.solveWith_settles (hr.nodes i).owns hlawful
  refine ⟨solution, s₁, hsolve, hsat.trans ?_, fun model h => ⟨?_, ?_, ?_⟩⟩
  · exact exists_congr fun σ => by rw [(hr.nodes i).eval]; rfl
  · exact ((hr.nodes i).eval _).symm.trans (hmodel model h).1
  · intro j
    exact (Model.answers_valueOf hd (hr.nodes j).owns model (hmodel model h).2).1.trans
      ((hr.nodes j).eval _)
  · intro j
    exact (Model.answers_valueOfWord hd (hr.words j).owns model (hmodel model h).2).1.trans
      ((hr.words j).denote _)

/-- An integer of two variables whose square is 4 has to be -2. -/
theorem Program.solves_square :
    ∃ w₀ w₁ r c solution, ∃ s₁ : Incremental ClauseStore, ∃ model,
      Runs (Work.create 2 {}) {} 0 w₀ ∧
      Runs (Program.run 0 [.word 0 (.range 1 3), .word 1 (.binary .mul 0 0), .word 2 (.literal 4),
        .node 0 (.relation .eq 1 2)] (.start 0)) w₀ r w₁ ∧
      w₁.circuits[0]? = some c ∧ Runs (solveWith c (r.nodes 0)) (.fresh ClauseStore) solution s₁ ∧
      solution.model? = some model ∧ ((Model.valueOfWord (r.words 0)).run model).1 = -2 := by
  let start : Workspace := ((Work.create 2 {}).run.run {}).2
  let p : Program := [.word 0 (.range 1 3), .word 1 (.binary .mul 0 0), .word 2 (.literal 4),
    .node 0 (.relation .eq 1 2)]
  have hcreate : Runs (Work.create 2 {}) {} 0 start := rfl
  have hfits : p.Fits 2 4 := by
    simp [p, Program.Fits, Instruction.Fits, NodeOp.Fits, WordOp.Fits]
  obtain ⟨r, w₁, c, hrun, hc, hsolve⟩ :=
    Program.solves hcreate hfits (Incremental.lawful_fresh (ε := ClauseStore))
  have hlabel : c.maxLabel ≤ labelLimit := by
    have hlast : ((p.run 0 (.start 0)).run.run start).2.circuits[0]?.all
        (fun c => decide (c.maxLabel ≤ labelLimit)) = true := by decide +kernel
    have hrun' : (p.run 0 (.start 0)).run.run start = _ := hrun
    rw [hrun', hc] at hlast
    exact of_decide_eq_true hlast
  obtain ⟨solution, s₁, hruns, hsat, hmodel⟩ := hsolve hlabel 0
  have hany : ∃ σ, (p.interpret 4 σ).nodes 0 = true := ⟨fun v => v == 2, by decide +kernel⟩
  obtain ⟨model, h⟩ := Solution.isSat_eq_true.mp (hsat.mpr hany)
  obtain ⟨hnode, -, hwords⟩ := hmodel model h
  refine ⟨start, w₁, r, c, solution, s₁, model, hcreate, hrun, hc, hruns, h, ?_⟩
  rw [hwords 0]
  have hvalue : (p.interpret 4 model.variableValue).words 0 =
      decode [model.variableValue 1, model.variableValue 2] := rfl
  have hsquare : (p.interpret 4 model.variableValue).nodes 0 =
      decide (wrap 4 (decode [model.variableValue 1, model.variableValue 2] *
        decode [model.variableValue 1, model.variableValue 2]) = wrap 4 4) := rfl
  rw [hsquare] at hnode
  rw [hvalue]
  -- the other three integers of two bits have squares 0 and 1
  revert hnode
  generalize model.variableValue 1 = low
  generalize model.variableValue 2 = sign
  revert low sign
  decide

end IntCircuit
