/-!
# Judgements that loops inherit

A judgement says something of a computation together with its results. If it passes from results to
computations that only return them, and from one computation to another after it, then it passes
from the rounds of a loop to the loop.

## Main definitions

* `Judgement`: what a judgement needs for that

## Main results

* `Judgement.mapM`, `Judgement.forM`, `Judgement.foldlM`: lists
-/

namespace IntCircuit

variable {m : Type → Type} [Monad m] {α β : Type}

/-- Judgements `P` of computations, and of what their results are like, that can be put together. -/
structure Judgement (P : {α : Type} → m α → (α → Prop) → Prop) : Prop where
  pure : ∀ {α : Type} {post : α → Prop} {a : α}, post a → P (pure a) post
  bind : ∀ {α β : Type} {mid : α → Prop} {last : β → Prop} {x : m α} {f : α → m β},
    P x mid → (∀ a, mid a → P (f a) last) → P (x >>= f) last

namespace Judgement

variable {P : {α : Type} → m α → (α → Prop) → Prop} {items : List α} {last : β → Prop}

/-- A computation for each item of a list. -/
theorem mapM [LawfulMonad m] (hP : Judgement P) {make : α → m β}
    (h : ∀ a ∈ items, P (make a) last) :
    P (items.mapM make) fun results => ∀ b ∈ results, last b := by
  induction items with
  | nil =>
    rw [List.mapM_nil]
    exact hP.pure fun b hb => (List.not_mem_nil hb).elim
  | cons a rest ih =>
    rw [List.mapM_cons]
    refine hP.bind (h a List.mem_cons_self) fun b hb => ?_
    refine hP.bind (ih fun a ha => h a (List.mem_cons_of_mem _ ha)) fun results hresults => ?_
    exact hP.pure (List.forall_mem_cons.mpr ⟨hb, hresults⟩)

/-- A computation without a result for each item of a list. -/
theorem forM (hP : Judgement P) {act : α → m PUnit} (h : ∀ a ∈ items, P (act a) fun _ => True) :
    P (items.forM act) fun _ => True := by
  induction items with
  | nil => exact hP.pure trivial
  | cons a rest ih =>
    refine hP.bind (h a List.mem_cons_self) fun _ _ => ?_
    exact ih fun a ha => h a (List.mem_cons_of_mem _ ha)

/-- Rounds that keep an invariant. -/
theorem foldlM (hP : Judgement P) {step : β → α → m β}
    (h : ∀ b, ∀ a ∈ items, last b → P (step b a) last) {b : β} (hb : last b) :
    P (items.foldlM step b) last := by
  induction items generalizing b with
  | nil => exact hP.pure hb
  | cons a rest ih =>
    rw [List.foldlM_cons]
    refine hP.bind (h b a List.mem_cons_self hb) fun b hb => ?_
    exact ih (fun b a ha => h b a (List.mem_cons_of_mem _ ha)) hb

end Judgement

end IntCircuit
