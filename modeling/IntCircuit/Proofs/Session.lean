import IntCircuit.Proofs.Sat.Incremental
import IntCircuit.Proofs.Solve

/-!
# Sessions

A session asks one incremental back end about nodes of one circuit, again and again, and makes gates
in between. All that was asked stays: a later answer is about the earlier nodes too. The clauses of
different calls define the same labels, but they define them alike, for a label stands for one gate
as long as the circuit lives.

## Main definitions

* `Session`: the calls of a session with their answers, the circuit and the back end
* `Session.asked`: the nodes that the back end was asked about
* `Session.Settles`: an answer that is right for all of them
* `Session.Inv`: what the back end knows is what the nodes asked about mean

## Main results

* `Session.Inv.solve`: what one call preserves
* `Session.answers`: every answer of a session is right
-/

namespace IntCircuit

/-- The nodes solved so far with the answers, the circuit and the back end. A session starts with a
new circuit and a new back end; it goes on with gates made from nodes of the circuit, or by solving
one of its nodes. -/
inductive Session (ε : Type) [Engine ε] :
    List (Node × Except Fault Solution) → Circuit → Incremental ε → Prop
  | start {id numVariables : Nat} {settings : Settings} {c : Circuit} :
      Circuit.create id numVariables settings = .ok c → Session ε [] c (.fresh ε)
  | gates {log : List (Node × Except Fault Solution)} {c : Circuit} {s : Incremental ε}
      (call : GateCall Node) : Session ε log c s → (∀ n ∈ call.operands, c.Owns n) →
      Session ε log (call.build.run c).2 s
  | solve {log : List (Node × Except Fault Solution)} {c : Circuit} {s : Incremental ε} (n : Node) :
      Session ε log c s → c.Owns n →
      Session ε (log ++ [(n, ((solveWith c n).run.run s).1)]) c ((solveWith c n).run.run s).2

namespace Session

variable {ε : Type} [Engine ε] {log : List (Node × Except Fault Solution)} {c d : Circuit}
  {s : Incremental ε} {nodes : List Node} {n : Node}

/-- The nodes of the calls that need the back end: those that are not constant. -/
def asked (log : List (Node × Except Fault Solution)) : List Node :=
  (log.map Prod.fst).filter fun n => !n.isConst

theorem asked_append (log rest : List (Node × Except Fault Solution)) :
    asked (log ++ rest) = asked log ++ asked rest := by
  rw [asked, List.map_append, List.filter_append, asked, asked]

theorem asked_singleton (answer : Except Fault Solution) (hconst : n.isConst = false) :
    asked [(n, answer)] = [n] := by
  simp [asked, hconst]

theorem asked_singleton_const (answer : Except Fault Solution) (hconst : n.isConst = true) :
    asked [(n, answer)] = [] := by
  simp [asked, hconst]

/-- The answer is right for the nodes: there is a model if they can be true together, and it makes
every one of them true. -/
structure Settles (nodes : List Node) (solution : Solution) : Prop where
  isSat : solution.isSat = true ↔ ∃ σ, ∀ n ∈ nodes, n.eval σ = true
  model : ∀ model, solution.model? = some model → ∀ n ∈ nodes,
    n.eval model.variableValue = true ∧ ((Model.valueOf n).run model).1 = true

/-- What the back end was given amounts to the clauses of the nodes. -/
structure Inv (nodes : List Node) (c : Circuit) (s : Incremental ε) : Prop where
  owns : ∀ n ∈ nodes, c.Owns n ∧ n.isConst = false
  ran : ∃ declared clauses, BackEnd.Ran (.fresh ε) declared clauses s ∧
    (∀ clause ∈ clauses, clause.Within declared) ∧
    ∀ τ, (∀ clause ∈ clauses, clause.holds τ = true) ↔ ∀ n ∈ nodes, n.toCnf.holds τ = true

theorem Inv.mono (h : c ≤ d) (hinv : Inv nodes c s) : Inv nodes d s :=
  ⟨fun n hn => ⟨(hinv.owns n hn).1.mono h, (hinv.owns n hn).2⟩, hinv.ran⟩

/-- Clauses hold for a completed assignment if all nodes are true, and make all nodes true. -/
theorem satisfiable_iff (hc : c.Valid) (hown : ∀ n ∈ nodes, c.Owns n ∧ n.isConst = false) :
    (∃ τ, ∀ n ∈ nodes, n.toCnf.holds τ = true) ↔ ∃ σ, ∀ n ∈ nodes, n.eval σ = true := by
  constructor
  · rintro ⟨τ, hτ⟩
    exact ⟨τ, fun n hn => ((hc.holds_toCnf (hown n hn).1 (hown n hn).2).mp (hτ n hn)).2⟩
  · rintro ⟨σ, hσ⟩
    exact ⟨c.complete σ, fun n hn => hc.holds_complete (hown n hn).1 (hown n hn).2 (hσ n hn)⟩

/-- **One call settles its node together with all nodes before it.** -/
theorem Inv.solve [LawfulEngine ε] (hinv : Inv nodes c s) (hc : c.Valid) (hn : c.Owns n)
    (hconst : n.isConst = false) :
    ∃ solution s₁, Runs (solveWith c n) s solution s₁ ∧ Inv (nodes ++ [n]) c s₁ ∧
      Settles (nodes ++ [n]) solution := by
  obtain ⟨declared, clauses, hran, hwithin, hclauses⟩ := hinv.ran
  obtain ⟨solution, s₁, hruns, hran₁, hunsat, hsat⟩ :=
    hran.solveWith Incremental.lawful_fresh hwithin hc hn hconst
  have hown : ∀ m ∈ nodes ++ [n], c.Owns m ∧ m.isConst = false := by
    intro m hm
    rcases List.mem_append.mp hm with hm | hm
    · exact hinv.owns m hm
    · rw [List.mem_singleton.mp hm]
      exact ⟨hn, hconst⟩
  have hclauses₁ (τ : Nat → Bool) :
      (∀ clause ∈ clauses ++ n.toCnf.clauses.toList, clause.holds τ = true) ↔
        ∀ m ∈ nodes ++ [n], m.toCnf.holds τ = true := by
    rw [List.forall_mem_append, List.forall_mem_append, List.forall_mem_singleton, hclauses,
      Cnf.holds_eq_all, List.all_eq_true]
  have hwithin₁ : ∀ clause ∈ clauses ++ n.toCnf.clauses.toList,
      clause.Within (declared + max n.toCnf.numVariables c.maxLabel) := by
    intro clause hclause
    rcases List.mem_append.mp hclause with hclause | hclause
    · exact (hwithin clause hclause).mono (by omega)
    · exact (hc.within_toCnf hn hconst clause hclause).mono (by omega)
  have hmodel (model : Model) (h : solution.model? = some model) : ∀ m ∈ nodes ++ [n],
      m.eval model.variableValue = true ∧ ((Model.valueOf m).run model).1 = true := by
    obtain ⟨τ, hτ, rfl⟩ := hsat model h
    intro m hm
    obtain ⟨hm₁, hm₂⟩ := hown m hm
    have htrue := ((hc.holds_toCnf hm₁ hm₂).mp ((hclauses₁ τ).mp hτ m hm)).2
    have heval := (hc.eval_ofAssignment hm₁ τ).trans htrue
    exact ⟨heval, (Model.answers_valueOf hc hm₁ _ (Model.knows_ofAssignment _ c)).1.trans heval⟩
  refine ⟨solution, s₁, hruns, ⟨hown, _, _, hran₁, hwithin₁, hclauses₁⟩, ?_, hmodel⟩
  -- by the clauses of all nodes, those of earlier calls included
  rw [← satisfiable_iff hc hown]
  constructor
  · intro h
    obtain ⟨model, h⟩ := Solution.isSat_eq_true.mp h
    obtain ⟨τ, hτ, -⟩ := hsat model h
    exact ⟨τ, (hclauses₁ τ).mp hτ⟩
  · rintro ⟨τ, hτ⟩
    by_contra h
    exact hunsat (by simpa using h) τ ((hclauses₁ τ).mpr hτ)

/-- A part of a list with one more item at its end: up to that item, or in the list before. -/
theorem eq_or_append_of_append_singleton {α : Type} {items before after : List α} {last a : α}
    (h : items ++ [last] = before ++ a :: after) :
    (after = [] ∧ before = items ∧ a = last) ∨
      ∃ rest, after = rest ++ [last] ∧ items = before ++ a :: rest := by
  rcases List.eq_nil_or_concat after with rfl | ⟨rest, b, rfl⟩
  · obtain ⟨rfl, hlast⟩ := List.append_inj' h rfl
    exact .inl ⟨rfl, rfl, (List.singleton_inj.mp hlast).symm⟩
  · rw [List.concat_eq_append, ← List.cons_append, ← List.append_assoc] at h
    obtain ⟨rfl, hlast⟩ := List.append_inj' h rfl
    obtain rfl := List.singleton_inj.mp hlast
    exact .inr ⟨rest, List.concat_eq_append, rfl⟩

/-- The circuit of a session has come from a new one. -/
theorem reachable (h : Session ε log c s) : c.Reachable := by
  induction h with
  | start hcreate => exact ⟨_, _, _, _, hcreate, .refl⟩
  | gates call _ hown ih => exact ih.reaches (.single call hown)
  | solve _ _ _ ih => exact ih

/-- **Calls keep the back end in line with the nodes asked about**, and each has settled its node
with those before it. -/
theorem inv [LawfulEngine ε] (h : Session ε log c s) (hl : c.maxLabel ≤ labelLimit) :
    Inv (asked log) c s ∧ ∀ before n answer after, log = before ++ (n, answer) :: after →
      n.isConst = false →
      ∃ solution, answer = .ok solution ∧ Settles (asked before ++ [n]) solution := by
  induction h with
  | start hcreate =>
    refine ⟨⟨fun _ hn => (List.not_mem_nil hn).elim, 0, [], .start,
      fun _ hc => (List.not_mem_nil hc).elim, fun τ => by simp [asked]⟩, ?_⟩
    intro before n answer after hlog
    exact absurd hlog.symm (by simp)
  | @gates log d s call _ _ ih =>
    have hgrown : d ≤ (call.build.run d).2 := Build.Grows.grown d
    obtain ⟨hinv, hbefore⟩ := ih (Nat.le_trans (Circuit.maxLabel_mono hgrown) hl)
    exact ⟨hinv.mono hgrown, hbefore⟩
  | @solve log d s n hsession hn ih =>
    obtain ⟨hinv, hbefore⟩ := ih hl
    have hc := hsession.reachable.valid hl
    rw [asked_append]
    cases hconst : n.isConst with
    | true =>
      -- the back end is not even asked
      obtain ⟨value, rfl⟩ := Node.eq_const_of_isConst hconst
      have hruns : (solveWith d (.const value)).run.run s = _ := solveWith_const d value s
      rw [hruns, asked_singleton_const _ hconst, List.append_nil]
      refine ⟨hinv, fun before m answer after hlog hm => ?_⟩
      rcases eq_or_append_of_append_singleton hlog with ⟨rfl, -, heq⟩ | ⟨rest, rfl, rfl⟩
      · cases heq
        cases hm
      · exact hbefore before m answer rest rfl hm
    | false =>
      obtain ⟨solution, s₁, hruns, hinv₁, hsettles⟩ := hinv.solve hc hn hconst
      have hruns : (solveWith d n).run.run s = _ := hruns
      rw [hruns, asked_singleton _ hconst]
      -- an entry of the log is the new one, or was there before
      refine ⟨hinv₁, fun before m answer after hlog hm => ?_⟩
      rcases eq_or_append_of_append_singleton hlog with ⟨rfl, rfl, heq⟩ | ⟨rest, rfl, rfl⟩
      · cases heq
        exact ⟨solution, rfl, hsettles⟩
      · exact hbefore before m answer rest rfl hm

/-- **Every answer of a session is right.** A call on a node that is not constant ends with an
answer. It says that there is a model if the nodes asked about so far, this one included, can be
true together, and the model makes every one of them true, also when it is asked; and once there is
no model, there is none in any later call on a node that is not constant. A call on a constant says
what the constant is and leaves the back end as it was. -/
theorem answers [LawfulEngine ε] (h : Session ε log c s) (hl : c.maxLabel ≤ labelLimit) :
    (∀ before n answer after, log = before ++ (n, answer) :: after → n.isConst = false →
      ∃ solution, answer = .ok solution ∧
        (solution.isSat = true ↔ ∃ σ, ∀ m ∈ asked before ++ [n], m.eval σ = true) ∧
        (∀ model, solution.model? = some model → ∀ m ∈ asked before ++ [n],
          m.eval model.variableValue = true ∧ ((Model.valueOf m).run model).1 = true) ∧
        (solution.isSat = false → ∀ m later, (m, later) ∈ after → m.isConst = false →
          ∃ other, later = .ok other ∧ other.isSat = false)) ∧
      ∀ value, Runs (solveWith c (.const value)) s
        (if value then .sat (.ofAssignment #[]) {} else .unsat {}) s := by
  refine ⟨fun before n answer after hlog hconst => ?_, fun value => solveWith_const c value s⟩
  obtain ⟨solution, rfl, hsettles⟩ := (h.inv hl).2 before n answer after hlog hconst
  refine ⟨solution, rfl, hsettles.isSat, hsettles.model, fun hunsat m later hmem hm => ?_⟩
  -- a later call comes after this one and some others
  obtain ⟨mid, rest, rfl⟩ := List.append_of_mem hmem
  have hlog' : log = (before ++ (n, .ok solution) :: mid) ++ (m, later) :: rest := by
    rw [hlog, List.append_assoc, List.cons_append]
  obtain ⟨other, rfl, hother⟩ := (h.inv hl).2 _ m later rest hlog' hm
  refine ⟨other, rfl, Bool.eq_false_iff.mpr fun hsat => ?_⟩
  -- what makes all nodes up to the later call true makes the earlier ones true
  obtain ⟨σ, hσ⟩ := hother.isSat.mp hsat
  have hsub : ∀ k ∈ asked before ++ [n], k.eval σ = true := by
    refine fun k hk => hσ k (List.mem_append_left _ ?_)
    rw [← List.singleton_append, ← List.append_assoc, asked_append, asked_append,
      asked_singleton _ hconst]
    exact List.mem_append_left _ hk
  rw [hsettles.isSat.mpr ⟨σ, hsub⟩] at hunsat
  cases hunsat

/-- A variable is asked about, then its negation: together they have no model. -/
theorem answers_of_variable_and_negation :
    ∃ log c, ∃ s : Incremental ClauseStore, Session ClauseStore log c s ∧
      c.maxLabel ≤ labelLimit ∧ ∃ first n solution,
        log = [(.var 1, first), (n, .ok solution)] ∧ n.isConst = false ∧
          solution.isSat = false := by
  let start : Circuit := ⟨0, 1, 4, true, by decide, by decide, by decide, #[], ∅⟩
  have hvar : start.Owns (.var 1) := ⟨by decide, by decide⟩
  have hcall : ∀ n ∈ (GateCall.not (Node.var 1)).operands, start.Owns n := by
    simpa [GateCall.operands] using hvar
  have hstart : Circuit.create 0 1 {} = .ok start := rfl
  have hreads := (GateCall.ensures (Circuit.create_valid hstart) hcall (by decide)).2.2
  have hfirst := ((Session.start (ε := ClauseStore) hstart).solve (.var 1) hvar).gates
    (.not (.var 1)) hcall
  have hsecond := hfirst.solve _ hreads.owns
  obtain ⟨solution, hanswer, hsat, -⟩ := (hsecond.answers (by decide)).1 [_] _ _ [] rfl (by decide)
  refine ⟨_, _, _, hsecond, by decide, _, _, solution, by rw [hanswer]; rfl, by decide, ?_⟩
  apply Bool.eq_false_iff.mpr
  intro htrue
  obtain ⟨σ, hσ⟩ := hsat.mp htrue
  have hone := hσ (.var 1) (by simp [asked, Node.isConst, Node.constant?])
  have hother := hσ _ (List.mem_append_right _ (List.mem_singleton_self _))
  rw [hreads.eval] at hother
  rw [Node.eval_var] at hone
  simp [GateCall.truth, hone] at hother

end Session

end IntCircuit
