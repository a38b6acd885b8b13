import IntCircuit.Proofs.Circuit.History
import IntCircuit.Proofs.Cnf.Encoder

/-!
# The models of a node's clauses

Clauses that define gates leave no choice: once the variables have values, every label must have
the value of its gate. So the models of a node's clauses are the assignments of its variables that
make it true, each in exactly one way.

## Main definitions

* `Circuit.complete`: an assignment of the variables, completed by the values of all gates

## Main results

* `Circuit.Valid.definitions_hold`: the definitions of a node's gates hold where every label has the
  value of what it stands for
* `Circuit.Valid.holds_complete`: a completed assignment is a model if it makes the node true
* `Circuit.Reachable.toCnf_models`: models of the clauses and assignments that make the node true
-/

namespace IntCircuit

theorem Cnf.holds_eq_all (τ : Nat → Bool) (cnf : Cnf) :
    cnf.holds τ = cnf.clauses.toList.all (Clause.holds τ) := by
  rw [holds, Array.all_toList]

namespace Circuit

variable {c : Circuit} {n : Node} {σ τ : Nat → Bool}

/-- An assignment of the variables, completed by the values of all gates at their labels. -/
def complete (c : Circuit) (σ : Nat → Bool) (label : Nat) : Bool :=
  if label ≤ c.numVariables then σ label
  else
    match c.gates[label - (c.numVariables + 1)]? with
    | some g => g.eval σ
    | none => false

theorem complete_var {v : Nat} (hv : v ≤ c.numVariables) : c.complete σ v = σ v :=
  if_pos hv

namespace Valid

/-- A completed assignment gives every label the value of its node. -/
theorem complete_label (hc : c.Valid) (hn : c.Owns n) (hconst : n.isConst = false) :
    c.complete σ n.label.natAbs = n.eval σ := by
  rcases hn.cases with ⟨value, rfl⟩ | ⟨v, rfl, -, hv⟩ | ⟨hg, -⟩
  · cases hconst
  · rw [Node.eval_var, Node.label_var, Int.natAbs_natCast, complete_var hv]
  · obtain ⟨i, hi, htag⟩ := hc.tag_of_mem hg
    rw [Node.label_of_tag? htag, Int.natAbs_natCast, complete, if_neg (by omega),
      Nat.add_sub_cancel_left, hi]

/-- **The definitions of a node's gates hold where every label has the value of what it stands
for**, at the values that the variables have there. -/
theorem definitions_hold (hc : c.Valid) (hn : c.Owns n) (hconst : n.isConst = false) :
    (∀ g ∈ c.gates, n.Contains g → g.definition.all (Clause.holds τ) = true) ↔
      ∀ m, n.Contains m → τ m.label.natAbs = m.eval τ := by
  -- at a single gate, its definition speaks of the labels of its inputs
  have hgate (m : Node) (hm : n.Contains m) : m.definition.all (Clause.holds τ) = true ↔
      τ m.label.natAbs = m.truth fun i => τ i.label.natAbs :=
    Node.definition_holds (hc.label_pos_of_contains hn hconst hm) fun i hi =>
      hc.label_pos_of_contains hn hconst (hm.input hi)
  constructor
  · -- from the inputs upwards
    intro h m
    induction m using Node.inputs_induction with
    | step m ih =>
      intro hm
      by_cases hvar : m.isVar
      · cases m with
        | var v => rw [Node.eval_var, Node.label_var, Int.natAbs_natCast]
        | _ => cases hvar
      · -- what is not a gate has no definition
        have hdef : m.definition.all (Clause.holds τ) = true := by
          rcases (hc.owns_of_contains hn hm).cases with ⟨value, rfl⟩ | ⟨v, rfl, -⟩ | ⟨hg, -⟩
          · rfl
          · rfl
          · exact h m hg hm
        rw [(hgate m hm).mp hdef, Node.eval_eq_truth]
        exact Node.truth_congr (by simpa using hvar) fun i hi => ih i hi (hm.input hi)
  · intro h g hg hng
    rw [hgate g hng, h g hng, Node.eval_eq_truth]
    obtain ⟨_, _, htag⟩ := hc.tag_of_mem hg
    have hvar : g.isVar = false := by cases g <;> first | rfl | cases htag
    exact Node.truth_congr hvar fun i hi => (h i (hng.input hi)).symm

/-- The definitions among the clauses of a node hold where every label has the value of what it
stands for. -/
theorem exists_definitions (hc : c.Valid) (hn : c.Owns n) (hconst : n.isConst = false) :
    ∃ definitions : List Clause, n.toCnf.clauses.toList = definitions ++ [[n.label]] ∧
      ∀ τ, definitions.all (Clause.holds τ) = true ↔
        ∀ m, n.Contains m → τ m.label.natAbs = m.eval τ := by
  obtain ⟨gs, hclauses, hmem, -⟩ := hc.toCnf_clauses hn
  rw [Node.assertion_of_isConst hconst] at hclauses
  refine ⟨gs.flatMap Node.definition, hclauses, fun τ => ?_⟩
  rw [← hc.definitions_hold hn hconst, List.all_flatMap, List.all_eq_true]
  exact ⟨fun h g hg hng => h g ((hmem g).mpr ⟨hg, hng⟩),
    fun h g hg => h g ((hmem g).mp hg).1 ((hmem g).mp hg).2⟩

/-- The clauses of a node hold where every label has the value of what it stands for and the node
is true. -/
theorem holds_toCnf (hc : c.Valid) (hn : c.Owns n) (hconst : n.isConst = false) :
    n.toCnf.holds τ = true ↔
      (∀ m, n.Contains m → τ m.label.natAbs = m.eval τ) ∧ n.eval τ = true := by
  obtain ⟨definitions, hclauses, hdefs⟩ := hc.exists_definitions hn hconst
  have hpos := hc.label_pos hn hconst
  rw [Cnf.holds_eq_all, hclauses, List.all_append, Bool.and_eq_true, hdefs]
  apply and_congr_right
  intro h
  rw [← h n .self, List.all_cons, Clause.holds_cons, Literal.holds_of_pos hpos]
  simp

/-- **A completed assignment satisfies the clauses of the nodes that it makes true.** -/
theorem holds_complete (hc : c.Valid) (hn : c.Owns n) (hconst : n.isConst = false)
    (htrue : n.eval σ = true) : n.toCnf.holds (c.complete σ) = true := by
  -- completing an assignment leaves the variables as they are, and so the values of gates
  have heval (m : Node) (hm : n.Contains m) : m.eval (c.complete σ) = m.eval σ :=
    Node.eval_congr fun v hv => complete_var (hc.owns_of_contains hn (hm.trans hv)).2
  refine (hc.holds_toCnf hn hconst).mpr ⟨fun m hm => ?_, by rw [heval n .self, htrue]⟩
  rw [heval m hm]
  exact hc.complete_label (hc.owns_of_contains hn hm) (hc.isConst_of_contains hn hconst hm)

/-- Over given values of its variables, the labels of a node have their values in one way only. -/
theorem eqOn_complete_iff (hc : c.Valid) (hn : c.Owns n) (hconst : n.isConst = false)
    (hτ : Set.EqOn τ σ n.vars) :
    (∀ m, n.Contains m → τ m.label.natAbs = m.eval τ) ↔ Set.EqOn τ (c.complete σ) n.labels := by
  have heval (m : Node) (hm : n.Contains m) : m.eval τ = c.complete σ m.label.natAbs := by
    rw [hc.complete_label (hc.owns_of_contains hn hm) (hc.isConst_of_contains hn hconst hm)]
    exact Node.eval_congr fun v hv => hτ (hm.trans hv)
  constructor
  · rintro h l ⟨m, hm, hl⟩
    obtain rfl : m.label.natAbs = l := by omega
    rw [h m hm, heval m hm]
  · intro h m hm
    have hpos := hc.label_pos_of_contains hn hconst hm
    rw [heval m hm]
    exact h ⟨m, hm, (Int.natAbs_of_nonneg (Int.le_of_lt hpos)).symm⟩

/-- **Restriction to the variables is one-to-one** from the models of a node's clauses, as far as
they give values to its labels, onto the assignments of its variables that make it true. -/
theorem bijOn_models (hc : c.Valid) (hn : c.Owns n) (hconst : n.isConst = false) :
    Set.BijOn (fun ρ : n.labels → Bool => ρ ∘ Set.inclusion n.vars_subset_labels)
      (n.labels.domRestrict '' {τ | n.toCnf.holds τ = true})
      (n.vars.domRestrict '' {σ | n.eval σ = true}) := by
  refine ⟨?_, ?_, ?_⟩
  · -- a model makes the node true
    rintro _ ⟨τ, hτ, rfl⟩
    exact ⟨τ, ((hc.holds_toCnf hn hconst).mp hτ).2, rfl⟩
  · -- models with the same variables agree on all labels, for both are completions of them
    rintro _ ⟨τ, hτ, rfl⟩ _ ⟨ρ, hρ, rfl⟩ h
    have hvars : Set.EqOn ρ τ n.vars := fun v hv => (congrFun h ⟨v, hv⟩).symm
    have hτ' : Set.EqOn τ (c.complete τ) n.labels :=
      (hc.eqOn_complete_iff hn hconst fun _ _ => rfl).mp ((hc.holds_toCnf hn hconst).mp hτ).1
    have hρ' : Set.EqOn ρ (c.complete τ) n.labels :=
      (hc.eqOn_complete_iff hn hconst hvars).mp ((hc.holds_toCnf hn hconst).mp hρ).1
    exact Set.domRestrict_eq_domRestrict_iff.mpr fun l hl => (hτ' hl).trans (hρ' hl).symm
  · -- an assignment that makes the node true is completed to a model
    rintro _ ⟨σ, hσ, rfl⟩
    refine ⟨_, ⟨c.complete σ, hc.holds_complete hn hconst hσ, rfl⟩, funext fun v => ?_⟩
    exact complete_var (hc.owns_of_contains hn v.2).2

end Valid

/-- The clauses of a constant have a model if it is truth. -/
theorem exists_holds_toCnf_const (value : Bool) :
    (∃ τ, (Node.const value).toCnf.holds τ = true) ↔ value = true := by
  rw [Node.toCnf, Encoder.visit, Encoder.add]
  simp only [Cnf.holds_addClauses]
  cases value <;> simp [Node.assertion, Cnf.holds]

/-- **The models of a node's clauses are the assignments that make it true.** The clauses of a node
that is not constant are definitions and the node's label. Every assignment of the node's variables
has an extension to its labels which satisfies the definitions, which gives every label the value
of what it stands for, and which is the only one. So restriction to the variables is one-to-one
from the models of all the clauses onto the assignments that make the node true. The clauses of a
constant have a model if it is truth. -/
theorem Reachable.toCnf_models (hc : c.Reachable) (hl : c.maxLabel ≤ labelLimit) (hn : c.Owns n) :
    (n.isConst = false →
      (∃ definitions : List Clause, n.toCnf.clauses.toList = definitions ++ [[n.label]] ∧
        ∀ σ : Nat → Bool, ∃ τ : Nat → Bool, Set.EqOn τ σ n.vars ∧
          (∀ m, n.Contains m → τ m.label.natAbs = m.eval σ) ∧
          ∀ ρ : Nat → Bool, Set.EqOn ρ σ n.vars →
            (definitions.all (Clause.holds ρ) = true ↔ Set.EqOn ρ τ n.labels)) ∧
      Set.BijOn (fun ρ : n.labels → Bool => ρ ∘ Set.inclusion n.vars_subset_labels)
        (n.labels.domRestrict '' {τ | n.toCnf.holds τ = true})
        (n.vars.domRestrict '' {σ | n.eval σ = true})) ∧
      ∀ value, n = .const value → ((∃ τ, n.toCnf.holds τ = true) ↔ value = true) := by
  have hvalid := hc.valid hl
  refine ⟨fun hconst => ⟨?_, hvalid.bijOn_models hn hconst⟩, ?_⟩
  · obtain ⟨definitions, hclauses, hdefs⟩ := hvalid.exists_definitions hn hconst
    refine ⟨definitions, hclauses, fun σ => ⟨c.complete σ, ?_, ?_, ?_⟩⟩
    · intro v hv
      exact complete_var (hvalid.owns_of_contains hn hv).2
    · intro m hm
      exact hvalid.complete_label (hvalid.owns_of_contains hn hm)
        (hvalid.isConst_of_contains hn hconst hm)
    · intro ρ hρ
      rw [hdefs, hvalid.eqOn_complete_iff hn hconst hρ]
  · rintro value rfl
    exact exists_holds_toCnf_const value

/-- The exclusive disjunction of two variables has the labels 1 to 4, and the models of its clauses
are as many as the assignments that make it true. -/
theorem toCnf_models_of_xor :
    ∃ c : Circuit, ∃ n : Node, c.Reachable ∧ c.maxLabel ≤ labelLimit ∧ c.Owns n ∧
      n.isConst = false ∧ n.toCnf.numClauses = 7 ∧
      Set.BijOn (fun ρ : n.labels → Bool => ρ ∘ Set.inclusion n.vars_subset_labels)
        (n.labels.domRestrict '' {τ | n.toCnf.holds τ = true})
        (n.vars.domRestrict '' {σ | n.eval σ = true}) := by
  let start : Circuit := ⟨0, 2, 4, true, by decide, by decide, by decide, #[], ∅⟩
  have hstart : create 0 2 {} = .ok start := rfl
  have hvars : ∀ m ∈ (GateCall.xor (Node.var 1) (.var 2)).operands, start.Owns m := by
    simp [GateCall.operands, Owns, start]
  have hreach := Reachable.reaches ⟨0, 2, {}, _, hstart, .refl⟩ (.single _ hvars)
  have hown := (GateCall.ensures (create_valid hstart) hvars (by decide)).2.2.owns
  exact ⟨_, _, hreach, by decide, hown, by decide, by decide,
    ((hreach.toCnf_models (by decide) hown).1 (by decide)).2⟩

end Circuit

end IntCircuit
