import IntCircuit.Proofs.Sat.Incremental

/-!
# The life of an incremental back end

Between two searches a back end goes on answering for the model that the first one has found, while
variables are declared, clauses are taken and clauses are refused. A later clause may be the first
to mention a variable, and a later declaration may open one that clauses have mentioned long before;
neither makes the answers anything but that model.

## Main definitions

* `BackEnd.History`: the states that calls lead to, with what they have declared, had taken and
  found out
* `Incremental.Recalls`: what a back end has kept of its last search

## Main results

* `Incremental.Recalls.addClause`, `Incremental.Tracks.recalls_solve`: what one call preserves
* `Incremental.recalls_of_history`: what all calls preserve
* `Incremental.lawful_of_history`: searches, refusals and answers at any moment
-/

namespace IntCircuit

/-- What a valuation leaves open may be read as false. -/
theorem Valuation.fits_getD (a : Valuation) : a.Fits fun v => (a v).getD false := by
  intro v value hv
  dsimp only
  rw [hv, Option.getD_some]

namespace BackEnd

/-- The states that calls lead to from the back end `start`, with the number of variables declared,
the clauses taken and, if the last search has found a model, the clauses that it was a search for.
Clauses may be refused in between. -/
inductive History {β : Type} [BackEnd β] (start : β) :
    Nat → List Clause → Option (List Clause) → β → Prop
  | start : History start 0 [] none start
  | addVariables {declared : Nat} {clauses : List Clause} {found : Option (List Clause)} {s : β}
      (count : Nat) : History start declared clauses found s →
      History start (declared + count) clauses found ((BackEnd.addVariables count).run s).2
  | taken {declared : Nat} {clauses : List Clause} {found : Option (List Clause)} {s s₁ : β}
      {clause : Clause} : History start declared clauses found s →
      Runs (BackEnd.addClause clause) s () s₁ →
      History start declared (clauses ++ [clause]) found s₁
  | refused {declared : Nat} {clauses : List Clause} {found : Option (List Clause)} {s s₁ : β}
      {clause : Clause} {fault : Fault} : History start declared clauses found s →
      (BackEnd.addClause clause).run.run s = (.error fault, s₁) →
      History start declared clauses found s₁
  | solve {declared : Nat} {clauses : List Clause} {found : Option (List Clause)} {s s₁ : β}
      {answer : Bool} : History start declared clauses found s → Runs BackEnd.solve s answer s₁ →
      History start declared clauses (if answer then some clauses else none) s₁
  | valueOf {declared : Nat} {clauses : List Clause} {found : Option (List Clause)} {s : β}
      (v : Nat) : History start declared clauses found s →
      History start declared clauses found ((BackEnd.valueOf v).run s).2

end BackEnd

namespace Incremental

variable {ε : Type} {s s₁ : Incremental ε} {declared : Nat} {clauses : List Clause}
  {found : Option (List Clause)} {clause : Clause} {fault : Fault}

/-! ## The last search -/

/-- What the back end has kept of its last search: a model of the clauses that were searched for, on
the variables mentioned by then, or nothing if there was none. -/
structure Recalls (s : Incremental ε) (found : Option (List Clause)) : Prop where
  mentioned : ∀ v, s.maxVariable < v → s.solution v = none
  nothing : found = none → s.solution = fun _ => none
  within : ∀ clauses, found = some clauses → ∀ clause ∈ clauses, clause.Within s.maxVariable
  model : ∀ clauses, found = some clauses → ∀ τ, s.solution.Fits τ →
    ∀ clause ∈ clauses, clause.holds τ = true

/-- The answers are the model that was found, as far as variables are declared: they make true every
clause of that search over declared variables, also if they were declared after it. -/
theorem Recalls.holds_valueOf (h : s.Recalls (some clauses)) (hclause : clause ∈ clauses)
    (hdeclared : ∀ l ∈ clause, l.natAbs ≤ s.numVariables) : clause.holds s.valueOf = true := by
  have hmentioned := h.within clauses rfl clause hclause
  have hmodel := h.model clauses rfl _ s.solution.fits_getD clause hclause
  rw [← hmodel]
  have hwithin : clause.Within (min s.numVariables s.maxVariable) := fun l hl =>
    ⟨(hmentioned l hl).1, Nat.le_min.mpr ⟨hdeclared l hl, (hmentioned l hl).2⟩⟩
  apply Clause.holds_congr hwithin
  intro v hpos hle
  obtain ⟨hnum, hmax⟩ := Nat.le_min.mp hle
  have hne : v ≠ 0 := Nat.ne_of_gt hpos
  cases hv : s.solution v with
  | none => simp [Incremental.valueOf, hv]
  | some value => cases value <;> simp [Incremental.valueOf, hv, hne, hnum, hmax]

variable [Engine ε]

/-! ## One call -/

/-- A clause is taken, or the back end stays as it was. -/
theorem run_addClause (s : Incremental ε) (clause : Clause) :
    (BackEnd.addClause clause).run.run s = match s.addClause clause with
      | .ok s₁ => (.ok (), s₁)
      | .error fault => (.error fault, s) := by
  change ((match s.addClause clause with
    | .ok s₁ => set s₁
    | .error fault => throw fault : BackEndM (Incremental ε) Unit)).run.run s = _
  cases s.addClause clause <;> rfl

/-- A clause that is refused leaves no trace. -/
theorem eq_of_refused (h : (BackEnd.addClause clause).run.run s = (.error fault, s₁)) : s₁ = s := by
  rw [run_addClause] at h
  cases hadd : s.addClause clause <;> rw [hadd] at h <;> cases h
  rfl

/-- **A clause with a literal out of range is refused**, wherever the literal stands, and the back
end stays as it was. -/
theorem run_addClause_of_mem {l : Literal} (hl : l ∈ clause) (hrange : l.inRange = false) :
    ∃ k ∈ clause, (BackEnd.addClause clause).run.run s = (.error (.literalOutOfRange k), s) := by
  have hsome : (clause.find? fun literal => !literal.inRange).isSome :=
    List.find?_isSome.mpr ⟨l, hl, by simp [hrange]⟩
  obtain ⟨k, hk⟩ := Option.isSome_iff_exists.mp hsome
  have hrefused : s.addClause clause = .error (.literalOutOfRange k) := by
    rw [Incremental.addClause, hk]
  exact ⟨k, List.mem_of_find?_eq_some hk, by rw [run_addClause, hrefused]⟩

/-- **A clause more** changes nothing about the last search. -/
theorem Recalls.addClause (h : s.Recalls found) (hadd : s.addClause clause = .ok s₁) :
    s₁.Recalls found := by
  obtain ⟨-, rfl⟩ := addClause_eq_ok.mp hadd
  have hle : s.maxVariable ≤ max s.maxVariable clause.maxVariable := Nat.le_max_left _ _
  refine ⟨fun v hv => h.mentioned v (Nat.lt_of_le_of_lt hle hv), h.nothing, ?_, h.model⟩
  intro clauses hfound c hc
  exact (h.within clauses hfound c hc).mono hle

/-- A clause more changes no answer, though it may be the first to mention a variable. -/
theorem Recalls.valueOf_addClause (h : s.Recalls found) (hadd : s.addClause clause = .ok s₁)
    (v : Nat) : s₁.valueOf v = s.valueOf v := by
  obtain ⟨-, rfl⟩ := addClause_eq_ok.mp hadd
  by_cases hv : v ≤ s.maxVariable
  · simp [Incremental.valueOf, hv]
  · simp [Incremental.valueOf, h.mentioned v (Nat.not_le.mp hv)]

/-- **A search** is what is recalled from then on. -/
theorem Tracks.recalls_solve [LawfulEngine ε] (h : s.Tracks declared clauses) :
    s.solve.2.Recalls (if s.solve.1 then some clauses else none) := by
  cases hfound : (Engine.solve s.engine).1 with
  | none =>
    rw [solve_of_none hfound]
    exact ⟨fun _ _ => rfl, fun _ => rfl, fun _ h => (by cases h), fun _ h => (by cases h)⟩
  | some model =>
    rw [solve_of_some hfound]
    refine ⟨fun v hv => if_neg (Nat.not_le.mpr hv), fun h => (by cases h), ?_, ?_⟩
    · intro others heq
      obtain rfl := Option.some.inj heq
      exact h.within
    · intro others heq τ hτ clause hclause
      obtain rfl := Option.some.inj heq
      -- past the variables mentioned, where nothing is kept, the model is read as it was found
      have hmodel := LawfulEngine.sound h.given hfound
        (fun v => if v ≤ s.maxVariable then τ v else (model v).getD false) ?_ clause hclause
      · rw [← hmodel]
        apply Clause.holds_congr (h.within clause hclause)
        intro v _ hv
        rw [if_pos hv]
      · intro v value hv
        dsimp only
        split
        next hle => exact hτ v value ((if_pos hle).trans hv)
        next => rw [hv, Option.getD_some]

/-! ## All calls -/

/-- Without the clauses that were refused it is the same history. -/
theorem ran_of_history (h : BackEnd.History (fresh ε) declared clauses found s) :
    BackEnd.Ran (fresh ε) declared clauses s := by
  induction h with
  | start => exact .start
  | addVariables count _ ih => exact ih.addVariables count
  | taken _ hadd ih => exact ih.addClause hadd
  | refused _ hrefused ih =>
    rw [eq_of_refused hrefused]
    exact ih
  | solve _ hsolve ih => exact ih.solve hsolve
  | valueOf v _ ih => exact ih.valueOf v

/-- **Whatever a back end is asked, it recalls its last search.** -/
theorem recalls_of_history [LawfulEngine ε]
    (h : BackEnd.History (fresh ε) declared clauses found s) : s.Recalls found := by
  induction h with
  | start => exact ⟨fun _ _ => rfl, fun _ => rfl, fun _ h => (by cases h), fun _ h => (by cases h)⟩
  | addVariables count _ ih => exact ⟨ih.mentioned, ih.nothing, ih.within, ih.model⟩
  | taken _ hadd ih => exact ih.addClause (runs_addClause.mp hadd)
  | refused _ hrefused ih =>
    rw [eq_of_refused hrefused]
    exact ih
  | solve hhistory hsolve _ =>
    obtain ⟨rfl, rfl⟩ := runs_solve.unique hsolve
    exact (tracks_of_ran (ran_of_history hhistory)).recalls_solve
  | valueOf v _ ih => exact ih

/-- **An incremental back end does right at any moment.** Whatever calls have come before, clauses
that were refused included, a search ends, and it finds a model if and only if the clauses taken
have one. A clause with the literal 0 anywhere is refused, and the back end stays as it was. If the
last search has found a model, the values answered make true every clause of that search over
declared variables; if it has found none, or there was none, every value answered is false. Another
clause, taken or refused, changes no value that is answered, and nor does asking. -/
theorem lawful_of_history [LawfulEngine ε]
    (h : BackEnd.History (fresh ε) declared clauses found s) :
    (∃ answer s₁, Runs BackEnd.solve s answer s₁ ∧
      (answer = true ↔ ∃ τ, ∀ clause ∈ clauses, clause.holds τ = true)) ∧
    (∀ clause : Clause, 0 ∈ clause → ∃ l ∈ clause,
      (BackEnd.addClause clause).run.run s = (.error (.literalOutOfRange l), s)) ∧
    (∀ solved, found = some solved → ∀ clause ∈ solved, (∀ l ∈ clause, l.natAbs ≤ declared) →
      clause.holds (fun v => ((BackEnd.valueOf v).run s).1) = true) ∧
    (found = none → ∀ v, ((BackEnd.valueOf v).run s).1 = false) ∧
    (∀ clause v, ((BackEnd.valueOf v).run ((BackEnd.addClause clause).run.run s).2).1 =
      ((BackEnd.valueOf v).run s).1) ∧
    ∀ v, ((BackEnd.valueOf v).run s).2 = s := by
  have htracks := tracks_of_ran (ran_of_history h)
  have hrecalls := recalls_of_history h
  refine ⟨⟨s.solve.1, s.solve.2, runs_solve, ?_⟩, ?_, ?_, ?_, ?_, fun _ => rfl⟩
  · cases hfound : (Engine.solve s.engine).1 with
    | none =>
      rw [solve_of_none hfound]
      have hnone := LawfulEngine.complete htracks.given hfound
      exact ⟨fun h => absurd h Bool.false_ne_true, fun ⟨τ, hτ⟩ => absurd hτ (hnone τ)⟩
    | some model =>
      rw [solve_of_some hfound]
      have hsome := LawfulEngine.sound htracks.given hfound _ model.fits_getD
      exact ⟨fun _ => ⟨_, hsome⟩, fun _ => rfl⟩
  · exact fun clause hzero => run_addClause_of_mem hzero rfl
  · rintro solved rfl clause hclause hdeclared
    rw [← htracks.numVariables] at hdeclared
    exact hrecalls.holds_valueOf hclause hdeclared
  · intro hnone v
    change s.valueOf v = false
    rw [Incremental.valueOf, hrecalls.nothing hnone]
    simp
  · intro clause v
    rw [run_addClause]
    cases hadd : s.addClause clause with
    | ok s₁ => exact hrecalls.valueOf_addClause hadd v
    | error fault => rfl

/-- Of two declared variables the first is false, so that the second is true; a clause with 0 is
refused before the search, and one with a variable that is not declared is taken after it. -/
theorem lawful_of_history_of_two_variables :
    ∃ s, BackEnd.History (fresh ClauseStore) 2 [[1, 2], [-1], [-2, 3]] (some [[1, 2], [-1]]) s ∧
      ((BackEnd.valueOf 1).run s).1 = false ∧ ((BackEnd.valueOf 2).run s).1 = true ∧
      ∃ s₁, Runs BackEnd.solve s true s₁ := by
  have htake {s : Incremental ClauseStore} (clause : Clause)
      (h : ∀ l ∈ clause, l.inRange = true) : ∃ s₁, Runs (BackEnd.addClause clause) s () s₁ :=
    ⟨_, runs_addClause.mpr (addClause_eq_ok.mpr ⟨h, rfl⟩)⟩
  have hstart : BackEnd.History (fresh ClauseStore) 2 [] none _ := .addVariables 2 .start
  obtain ⟨_, hone⟩ := htake [1, 2] (by decide)
  obtain ⟨s, htwo⟩ := htake [-1] (by decide)
  have hbefore := (hstart.taken hone).taken htwo
  obtain ⟨l, -, hzero⟩ := (lawful_of_history hbefore).2.1 [3, 0] (by decide)
  obtain ⟨⟨answer, s₁, hsolve, hanswer⟩, -⟩ := lawful_of_history (hbefore.refused hzero)
  obtain rfl : answer = true := hanswer.mpr ⟨fun v => v == 2, by decide⟩
  obtain ⟨s₂, hthree⟩ := htake [-2, 3] (by decide)
  have hafter := ((hbefore.refused hzero).solve hsolve).taken hthree
  obtain ⟨⟨answer, s₃, hagain, hanswer⟩, -, hmodel, -⟩ := lawful_of_history hafter
  obtain rfl : answer = true := hanswer.mpr ⟨fun v => v != 1, by decide⟩
  have hfirst : ((BackEnd.valueOf 1).run s₂).1 = false := by
    simpa [Clause.holds, Literal.holds] using hmodel _ rfl [-1] (by decide) (by decide)
  have hsecond : ((BackEnd.valueOf 2).run s₂).1 = true := by
    simpa [Clause.holds, Literal.holds, hfirst] using hmodel _ rfl [1, 2] (by decide) (by decide)
  exact ⟨s₂, hafter, hfirst, hsecond, s₃, hagain⟩

end Incremental

end IntCircuit
