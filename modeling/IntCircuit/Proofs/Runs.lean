import IntCircuit.Sat.BackEnd
import IntCircuit.Workspace

/-!
# Runs that end well

A checked computation with a state, when it finds no fault: its result and the state after it.

## Main definitions

* `Runs`: from this state the computation ends with this result in that state

## Main results

* `run_bind`, `Runs.bind`: one computation after another
* `run_tryCatch`: another computation after a fault
* `Runs.lift`: a computation that cannot fail
-/

namespace IntCircuit

variable {σ α β : Type} {s s₁ s₂ : σ}

/-- From the state `s` the computation ends with the result `a` in the state `s₁`. -/
def Runs (m : ExceptT Fault (StateM σ) α) (s : σ) (a : α) (s₁ : σ) : Prop :=
  m.run.run s = (.ok a, s₁)

/-- One computation after another: a fault of the first is the end. -/
theorem run_bind (m : ExceptT Fault (StateM σ) α) (f : α → ExceptT Fault (StateM σ) β) (s : σ) :
    (m >>= f).run.run s = match m.run.run s with
      | (.ok a, s₁) => (f a).run.run s₁
      | (.error fault, s₁) => (.error fault, s₁) := by
  simp only [ExceptT.run, StateT.run, bind, ExceptT.bind, ExceptT.mk, StateT.bind]
  rcases m s with ⟨_ | _, _⟩ <;> rfl

/-- A computation in whose place another is done if it finds a fault. -/
theorem run_tryCatch (m : ExceptT Fault (StateM σ) α) (handle : Fault → ExceptT Fault (StateM σ) α)
    (s : σ) : (tryCatch m handle).run.run s = match m.run.run s with
      | (.ok a, s₁) => (.ok a, s₁)
      | (.error fault, s₁) => (handle fault).run.run s₁ := by
  simp only [ExceptT.run, StateT.run, tryCatch, tryCatchThe, MonadExceptOf.tryCatch,
    ExceptT.tryCatch, ExceptT.mk, bind, StateT.bind]
  rcases m s with ⟨_ | _, _⟩ <;> rfl

namespace Runs

variable {m : ExceptT Fault (StateM σ) α} {f : α → ExceptT Fault (StateM σ) β} {a : α} {b : β}

protected theorem pure (a : α) (s : σ) : Runs (pure a) s a s := rfl

protected theorem bind (hm : Runs m s a s₁) (hf : Runs (f a) s₁ b s₂) : Runs (m >>= f) s b s₂ := by
  rw [Runs] at hm
  rw [Runs, run_bind, hm]
  exact hf

/-- A computation that looks at the state first. -/
theorem get_bind {f : σ → ExceptT Fault (StateM σ) α} :
    Runs (get >>= f) s a s₁ ↔ Runs (f s) s a s₁ :=
  Iff.rfl

/-- A computation that cannot fail. -/
protected theorem lift (m : StateM σ α) (s : σ) :
    Runs (liftM m : ExceptT Fault (StateM σ) α) s (m.run s).1 (m.run s).2 := rfl

/-- A computation that cannot fail, for each item of a list. -/
theorem mapM_lift (g : α → StateM σ β) (items : List α) (s : σ) :
    Runs (items.mapM fun a => (liftM (g a) : ExceptT Fault (StateM σ) β)) s
      ((items.mapM g).run s).1 ((items.mapM g).run s).2 := by
  induction items generalizing s with
  | nil => exact .pure [] s
  | cons a rest ih =>
    rw [List.mapM_cons, List.mapM_cons]
    exact (Runs.lift (g a) s).bind ((ih ((g a).run s).2).bind (.pure _ _))

/-- A fault is no end of a run. -/
theorem not_throw (fault : Fault) : ¬Runs (throw fault : ExceptT Fault (StateM σ) α) s a s₁ := by
  intro h
  cases h

/-- A run has one end. -/
theorem unique {a₁ : α} (h : Runs m s a s₁) (k : Runs m s a₁ s₂) : a₁ = a ∧ s₂ = s₁ := by
  have heq := k.symm.trans h
  cases heq
  exact ⟨rfl, rfl⟩

end Runs

end IntCircuit
