import IntCircuit.Proofs.Cnf.Definition
import IntCircuit.Proofs.Runs
import IntCircuit.Sat.Engine

/-!
# Sound and complete solvers

What a solver promises is a promise about its history: the clauses it was given, with searches
anywhere between them. An engine that has found a model has found one however its open variables
are read, and a back end answers for a model until it is asked to do something else.

## Main definitions

* `Engine.Given`, `LawfulEngine`: sound and complete engines
* `BackEnd.Ran`, `BackEnd.Lawful`: new back ends that are sound and complete
* `Clause.Within`: clauses over variables up to a limit

## Main results

* `BackEnd.Ran.forM_addClause`: a lawful back end takes clauses one after another
* `BackEnd.Ran.mapM_valueOf`: questions about values leave its history as it is
-/

namespace IntCircuit

/-- A total assignment with the values that the valuation gives. -/
def Valuation.Fits (a : Valuation) (τ : Nat → Bool) : Prop :=
  ∀ v value, a v = some value → τ v = value

/-- The states of an engine that was given these clauses. -/
inductive Engine.Given {ε : Type} [Engine ε] : List Clause → ε → Prop
  | empty : Given [] Engine.empty
  | add {clauses : List Clause} {e : ε} (clause : Clause) : Given clauses e →
      Given (clauses ++ [clause]) (Engine.add e clause)
  | solve {clauses : List Clause} {e : ε} : Given clauses e → Given clauses (Engine.solve e).2

/-- Engines that find a model of the clauses they were given if there is one. -/
class LawfulEngine (ε : Type) [Engine ε] : Prop where
  sound {clauses : List Clause} {e : ε} {a : Valuation} : Engine.Given clauses e →
    (Engine.solve e).1 = some a → ∀ τ, a.Fits τ → ∀ clause ∈ clauses, clause.holds τ = true
  complete {clauses : List Clause} {e : ε} : Engine.Given clauses e →
    (Engine.solve e).1 = none → ∀ τ, ¬∀ clause ∈ clauses, clause.holds τ = true

namespace Clause

/-- The literals of the clause name variables up to the limit. -/
def Within (clause : Clause) (limit : Nat) : Prop :=
  ∀ l ∈ clause, 0 < l.natAbs ∧ l.natAbs ≤ limit

theorem Within.mono {clause : Clause} {limit more : Nat} (h : clause.Within limit)
    (hle : limit ≤ more) : clause.Within more :=
  fun l hl => ⟨(h l hl).1, Nat.le_trans (h l hl).2 hle⟩

/-- The truth of a clause is settled by the variables it names. -/
theorem holds_congr {clause : Clause} {limit : Nat} (h : clause.Within limit) {σ τ : Nat → Bool}
    (heq : ∀ v, 0 < v → v ≤ limit → σ v = τ v) : clause.holds σ = clause.holds τ := by
  induction clause with
  | nil => rfl
  | cons l rest ih =>
    have hl := h l List.mem_cons_self
    rw [holds_cons, holds_cons, ih fun k hk => h k (List.mem_cons_of_mem l hk), Literal.holds,
      Literal.holds, heq l.natAbs hl.1 hl.2]

end Clause

namespace BackEnd

variable {β : Type} [BackEnd β] {start s s₁ : β} {declared : Nat} {clauses : List Clause}

/-- The states that calls lead to from the back end `start`, with the number of variables declared
and the clauses taken. -/
inductive Ran (start : β) : Nat → List Clause → β → Prop
  | start : Ran start 0 [] start
  | addVariables {declared : Nat} {clauses : List Clause} {s : β} (count : Nat) :
      Ran start declared clauses s →
      Ran start (declared + count) clauses ((BackEnd.addVariables count).run s).2
  | addClause {declared : Nat} {clauses : List Clause} {s s₁ : β} {clause : Clause} :
      Ran start declared clauses s → Runs (BackEnd.addClause clause) s () s₁ →
      Ran start declared (clauses ++ [clause]) s₁
  | solve {declared : Nat} {clauses : List Clause} {s s₁ : β} {answer : Bool} :
      Ran start declared clauses s → Runs BackEnd.solve s answer s₁ →
      Ran start declared clauses s₁
  | valueOf {declared : Nat} {clauses : List Clause} {s : β} (v : Nat) :
      Ran start declared clauses s → Ran start declared clauses ((BackEnd.valueOf v).run s).2

/-- The back end is sound and complete from here on: it takes clauses over declared variables, and
if these are all it was given, it finds out whether they have a model and then answers for one. -/
structure Lawful (start : β) : Prop where
  accepts {declared : Nat} {clauses : List Clause} {s : β} {clause : Clause} :
    Ran start declared clauses s → clause.Within declared → clause.Within labelLimit →
    ∃ s₁, Runs (BackEnd.addClause clause) s () s₁
  decides {declared : Nat} {clauses : List Clause} {s : β} :
    Ran start declared clauses s → (∀ clause ∈ clauses, clause.Within declared) →
    ∃ answer s₁, Runs BackEnd.solve s answer s₁ ∧
      (answer = false → ∀ τ, ¬∀ clause ∈ clauses, clause.holds τ = true) ∧
      (answer = true → ∃ τ, (∀ clause ∈ clauses, clause.holds τ = true) ∧
        ∀ vars : List Nat, (∀ v ∈ vars, 0 < v ∧ v ≤ declared) →
          ((vars.mapM fun v => (BackEnd.valueOf v : StateM β Bool)).run s₁).1 = vars.map τ)

/-- A lawful back end takes clauses one after another. -/
theorem Ran.forM_addClause (hlawful : Lawful start) (h : Ran start declared clauses s)
    {more : List Clause} (hmore : ∀ clause ∈ more, clause.Within declared)
    (hlimit : ∀ clause ∈ more, clause.Within labelLimit) :
    ∃ s₁, Runs (more.forM BackEnd.addClause) s () s₁ ∧
      Ran start declared (clauses ++ more) s₁ := by
  induction more generalizing clauses s with
  | nil => exact ⟨s, .pure () s, by rwa [List.append_nil]⟩
  | cons clause rest ih =>
    -- the first clause is taken, and then it is part of the history
    obtain ⟨s₁, hadd⟩ := hlawful.accepts h (hmore clause List.mem_cons_self)
      (hlimit clause List.mem_cons_self)
    obtain ⟨s₂, hrest, hran⟩ := ih (h.addClause hadd)
      (fun c hc => hmore c (List.mem_cons_of_mem clause hc))
      (fun c hc => hlimit c (List.mem_cons_of_mem clause hc))
    rw [List.append_assoc] at hran
    exact ⟨s₂, hadd.bind hrest, hran⟩

theorem Ran.mapM_valueOf (h : Ran start declared clauses s) (vars : List Nat) :
    Ran start declared clauses
      ((vars.mapM fun v => (BackEnd.valueOf v : StateM β Bool)).run s).2 := by
  induction vars generalizing s with
  | nil => exact h
  | cons v rest ih =>
    rw [List.mapM_cons]
    exact ih (h.valueOf v)

end BackEnd

end IntCircuit
