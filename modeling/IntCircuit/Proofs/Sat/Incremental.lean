import IntCircuit.Proofs.Sat.BackEnd
import IntCircuit.Proofs.Sat.Search
import IntCircuit.Sat.Incremental

/-!
# Incremental solving is lawful

A sound and complete engine makes a sound and complete back end, whatever it is asked and in
whatever order, and the search makes a sound and complete engine.

## Main definitions

* `Incremental.Tracks`: what a back end has counted and given to its engine

## Main results

* `instLawfulEngineClauseStore`: the engine that keeps its clauses is sound and complete
* `Incremental.lawful_fresh`: a new incremental back end is sound and complete
-/

namespace IntCircuit

theorem ClauseStore.clauses_of_given {clauses : List Clause} {e : ClauseStore}
    (h : Engine.Given clauses e) : e.clauses.toList = clauses := by
  induction h with
  | empty => rfl
  | @add clauses e clause _ ih =>
    have hadd : (Engine.add e clause).clauses = e.clauses.push clause := rfl
    rw [hadd, Array.toList_push, ih]
  | solve _ ih => exact ih

/-- **The search makes a sound and complete engine.** -/
instance : LawfulEngine ClauseStore where
  sound {clauses e a} h hfound τ hτ := by
    obtain ⟨found, hsearch, rfl⟩ := Option.map_eq_some_iff.mp hfound
    rw [ClauseStore.clauses_of_given h] at hsearch
    exact Search.findModel_sound hsearch hτ
  complete {clauses e} h hnone τ := by
    have hnone := Option.map_eq_none_iff.mp hnone
    rw [ClauseStore.clauses_of_given h] at hnone
    exact Search.findModel_complete hnone τ

namespace Incremental

variable {ε : Type} [Engine ε] {s s₁ : Incremental ε} {declared : Nat} {clauses : List Clause}
  {clause : Clause}

/-- What the back end has counted, and what it has given to its engine. -/
structure Tracks (s : Incremental ε) (declared : Nat) (clauses : List Clause) : Prop where
  numVariables : s.numVariables = declared
  given : Engine.Given clauses s.engine
  within : ∀ clause ∈ clauses, clause.Within s.maxVariable

/-- A clause is taken if its literals are in range. -/
theorem addClause_eq_ok :
    s.addClause clause = .ok s₁ ↔ (∀ l ∈ clause, l.inRange = true) ∧
      s₁ = { s with
        engine := Engine.add s.engine clause
        numClauses := (s.numClauses + 1) % labelModulus
        maxVariable := max s.maxVariable clause.maxVariable } := by
  rw [addClause]
  split
  · next l hfind =>
    simp only [reduceCtorEq, false_iff, not_and]
    -- the literal that is complained about is out of range
    intro hall
    have hl := List.find?_some hfind
    rw [hall l (List.mem_of_find?_eq_some hfind)] at hl
    cases hl
  · next hfind =>
    have hall : ∀ l ∈ clause, l.inRange = true := by simpa using hfind
    rw [Except.ok.injEq, eq_comm, and_iff_right hall]

theorem runs_addClause :
    Runs (BackEnd.addClause clause) s () s₁ ↔ s.addClause clause = .ok s₁ := by
  refine Runs.get_bind.trans ?_
  cases s.addClause clause with
  | error fault => exact ⟨fun h => (Runs.not_throw fault h).elim, fun h => by cases h⟩
  | ok s₂ => exact ⟨fun h => congrArg Except.ok (congrArg Prod.snd h), fun h => by cases h; rfl⟩

theorem solve_of_some {model : Valuation} (h : (Engine.solve s.engine).1 = some model) :
    s.solve = (true, { s with
      engine := (Engine.solve s.engine).2
      solution := fun v => if v ≤ s.maxVariable then model v else none }) := by
  rw [Incremental.solve]
  split
  next found engine hsolve =>
    rw [hsolve] at h ⊢
    obtain rfl : found = _ := h
    rfl

theorem solve_of_none (h : (Engine.solve s.engine).1 = none) :
    s.solve = (false, { s with
      engine := (Engine.solve s.engine).2
      solution := fun _ => none }) := by
  rw [Incremental.solve]
  split
  next found engine hsolve =>
    rw [hsolve] at h ⊢
    obtain rfl : found = _ := h
    rfl

theorem runs_solve : Runs BackEnd.solve s s.solve.1 s.solve.2 := rfl

theorem run_valueOf (v : Nat) :
    (BackEnd.valueOf v : StateM (Incremental ε) Bool).run s = (s.valueOf v, s) := rfl

theorem run_mapM_valueOf (vars : List Nat) :
    (vars.mapM fun v => (BackEnd.valueOf v : StateM (Incremental ε) Bool)).run s =
      (vars.map s.valueOf, s) := by
  induction vars with
  | nil => rfl
  | cons v rest ih =>
    rw [List.mapM_cons, StateT.run_bind, run_valueOf]
    change (StateT.run (do
      let values ← rest.mapM fun v => (BackEnd.valueOf v : StateM (Incremental ε) Bool)
      pure (s.valueOf v :: values)) s) = _
    rw [StateT.run_bind, ih]
    rfl

theorem natAbs_pos_of_inRange {l : Literal} (h : l.inRange = true) : 0 < l.natAbs := by
  rw [Literal.inRange, Bool.and_eq_true, bne_iff_ne] at h
  exact Int.natAbs_pos.mpr h.1

theorem Tracks.addClause (h : s.Tracks declared clauses) (hadd : s.addClause clause = .ok s₁) :
    s₁.Tracks declared (clauses ++ [clause]) := by
  obtain ⟨hrange, rfl⟩ := addClause_eq_ok.mp hadd
  refine ⟨h.numVariables, h.given.add clause, fun other hother => ?_⟩
  rcases List.mem_append.mp hother with hother | hother
  · exact (h.within other hother).mono (Nat.le_max_left _ _)
  · rw [List.mem_singleton.mp hother]
    exact fun l hl => ⟨natAbs_pos_of_inRange (hrange l hl),
      Nat.le_trans (Clause.maxVariable_le.mp (Nat.le_refl _) l hl) (Nat.le_max_right _ _)⟩

theorem Tracks.solve (h : s.Tracks declared clauses) : s.solve.2.Tracks declared clauses := by
  cases hfound : (Engine.solve s.engine).1 with
  | none =>
    rw [solve_of_none hfound]
    exact ⟨h.numVariables, h.given.solve, h.within⟩
  | some model =>
    rw [solve_of_some hfound]
    exact ⟨h.numVariables, h.given.solve, h.within⟩

/-- **Whatever a new back end is asked, it keeps count** and hands on the clauses it takes. -/
theorem tracks_of_ran (h : BackEnd.Ran (fresh ε) declared clauses s) :
    s.Tracks declared clauses := by
  induction h with
  | start => exact ⟨rfl, .empty, fun _ hc => (List.not_mem_nil hc).elim⟩
  | addVariables count _ ih => exact ⟨congrArg (· + count) ih.numVariables, ih.given, ih.within⟩
  | addClause _ hadd ih => exact ih.addClause (runs_addClause.mp hadd)
  | solve _ hsolve ih =>
    rw [(runs_solve.unique hsolve).2]
    exact ih.solve
  | valueOf v _ ih => exact ih

/-- After a search that has found a model, the values answered make one. -/
theorem Tracks.holds_valueOf [LawfulEngine ε] (h : s.Tracks declared clauses)
    (hwithin : ∀ clause ∈ clauses, clause.Within declared) {model : Valuation}
    (hfound : (Engine.solve s.engine).1 = some model) :
    ∀ clause ∈ clauses, clause.holds s.solve.2.valueOf = true := by
  intro clause hclause
  -- an open variable is answered with false, and so it is read here
  have hmodel := LawfulEngine.sound h.given hfound (fun v => (model v).getD false)
    (fun v value hv => by simp [hv]) clause hclause
  -- only variables that are declared and mentioned have an answer of their own
  have hboth : clause.Within (min declared s.maxVariable) := fun l hl =>
    ⟨(hwithin clause hclause l hl).1,
      Nat.le_min.mpr ⟨(hwithin clause hclause l hl).2, (h.within clause hclause l hl).2⟩⟩
  rw [← hmodel]
  apply Clause.holds_congr hboth
  intro v hpos hle
  obtain ⟨hdeclared, hmax⟩ := Nat.le_min.mp hle
  have hnum := h.numVariables
  rw [solve_of_some hfound]
  cases hv : model v with
  | none => simp [Incremental.valueOf, hmax, hv]
  | some value => cases value <;> simp [Incremental.valueOf, hmax, hv]; omega

/-- **A new incremental back end is sound and complete** if its engine is. -/
theorem lawful_fresh [LawfulEngine ε] : BackEnd.Lawful (fresh ε) where
  accepts {declared clauses s clause} _ _ hlimit := by
    have hrange : ∀ l ∈ clause, l.inRange = true := fun l hl => by
      rw [Literal.inRange, Bool.and_eq_true, bne_iff_ne, decide_eq_true_eq]
      exact ⟨Int.natAbs_pos.mp (hlimit l hl).1, Nat.le_succ_of_le (hlimit l hl).2⟩
    exact ⟨_, runs_addClause.mpr (addClause_eq_ok.mpr ⟨hrange, rfl⟩)⟩
  decides {declared clauses s} hran hwithin := by
    have htracks := tracks_of_ran hran
    refine ⟨s.solve.1, s.solve.2, runs_solve, ?_⟩
    cases hfound : (Engine.solve s.engine).1 with
    | none =>
      have hanswer : s.solve.1 = false := by rw [solve_of_none hfound]
      rw [hanswer]
      exact ⟨fun _ => LawfulEngine.complete htracks.given hfound,
        fun h => absurd h Bool.false_ne_true⟩
    | some model =>
      have hanswer : s.solve.1 = true := by rw [solve_of_some hfound]
      rw [hanswer]
      refine ⟨fun h => absurd h.symm Bool.false_ne_true, fun _ => ⟨s.solve.2.valueOf,
        htracks.holds_valueOf hwithin hfound, fun vars _ => ?_⟩⟩
      rw [run_mapM_valueOf]

end Incremental

end IntCircuit
