import IntCircuit.Proofs.Cnf.Definition
import IntCircuit.Sat.Search
import Mathlib.Data.Option.Basic
import Std.Data.TreeMap.Lemmas
import Std.Data.TreeSet.Lemmas

/-!
# The search is sound and complete

Every move of the search keeps the models: the total assignments that fit the values chosen so far
and satisfy the clauses that are left. Propagation ends in clauses over open variables only, so a
clause that is left always has a variable to try.

## Main definitions

* `Search.Assignment.Fits`: a total assignment with the values chosen so far
* `Search.Models`: the models of a state of the search
* `Search.Steps`: one state of the search follows from another
* `Search.Open`: clauses over open variables, none of them empty

## Main results

* `Search.steps_of_propagate`, `Search.models_of_propagate_eq_none`: propagation keeps the models
* `Search.findModel_sound`, `Search.findModel_complete`: the search finds a model if there is one
-/

namespace IntCircuit.Search

variable {a b d : Assignment} {τ : Nat → Bool} {clauses left rest : List Clause} {clause : Clause}
  {v : Nat} {value : Bool}

/-- A total assignment with the values chosen so far. -/
def Assignment.Fits (a : Assignment) (τ : Nat → Bool) : Prop :=
  ∀ v value, a[v]? = some value → τ v = value

namespace Assignment

theorem fits_empty : Assignment.Fits ∅ τ := fun v value h => by simp at h

theorem fits_insert (hv : a[v]? = none) : Fits (a.insert v value) τ ↔ a.Fits τ ∧ τ v = value := by
  constructor
  · intro h
    refine ⟨fun w other hw => h w other ?_, h v value (by simp)⟩
    rw [Std.TreeMap.getElem?_insert, if_neg]
    · exact hw
    · -- the variable was open, so no value of another one is replaced
      intro heq
      rw [Std.LawfulEqOrd.eq_of_compare heq, hw] at hv
      cases hv
  · rintro ⟨h, hvalue⟩ w other hw
    rw [Std.TreeMap.getElem?_insert] at hw
    split at hw
    · next heq => rw [← Std.LawfulEqOrd.eq_of_compare heq, hvalue, Option.some.inj hw]
    · exact h w other hw

theorem fits_assume {l : Literal} (hl : a[l.natAbs]? = none) :
    (a.assume l).Fits τ ↔ a.Fits τ ∧ l.holds τ = true := by
  rw [assume, fits_insert hl, Literal.holds, beq_iff_eq]

theorem holds_of_truth? {l : Literal} (h : a.truth? l = some value) (hτ : a.Fits τ) :
    l.holds τ = value := by
  obtain ⟨chosen, hchosen, rfl⟩ := Option.map_eq_some_iff.mp h
  rw [Literal.holds, hτ _ _ hchosen]

theorem truth?_eq_none {l : Literal} : a.truth? l = none ↔ a[l.natAbs]? = none :=
  Option.map_eq_none_iff

theorem holds_of_reduce_eq_none (h : a.reduce clause = none) (hτ : a.Fits τ) :
    clause.holds τ = true := by
  induction clause with
  | nil => cases h
  | cons l rest ih =>
    rw [reduce] at h
    rw [Clause.holds_cons]
    split at h
    · next htruth => rw [holds_of_truth? htruth hτ, Bool.true_or]
    · rw [ih h, Bool.or_true]
    · rw [ih (Option.map_eq_none_iff.mp h), Bool.or_true]

theorem holds_reduce {remaining : Clause} (h : a.reduce clause = some remaining) (hτ : a.Fits τ) :
    remaining.holds τ = clause.holds τ := by
  induction clause generalizing remaining with
  | nil => cases h; rfl
  | cons l rest ih =>
    rw [reduce] at h
    rw [Clause.holds_cons]
    split at h
    · cases h
    -- a literal that is false is left out
    · next htruth => rw [holds_of_truth? htruth hτ, Bool.false_or, ih h]
    · obtain ⟨others, hothers, rfl⟩ := Option.map_eq_some_iff.mp h
      rw [Clause.holds_cons, ih hothers]

/-- What is left of a clause are literals of it with open variables. -/
theorem open_of_reduce {remaining : Clause} (h : a.reduce clause = some remaining) :
    ∀ l ∈ remaining, l ∈ clause ∧ a[l.natAbs]? = none := by
  induction clause generalizing remaining with
  | nil => cases h; exact fun l hl => (List.not_mem_nil hl).elim
  | cons k rest ih =>
    rw [reduce] at h
    split at h
    · cases h
    · exact fun l hl => ⟨List.mem_cons_of_mem k (ih h l hl).1, (ih h l hl).2⟩
    · next htruth =>
      obtain ⟨others, hothers, rfl⟩ := Option.map_eq_some_iff.mp h
      intro l hl
      rcases List.mem_cons.mp hl with rfl | hl
      · exact ⟨List.mem_cons_self, truth?_eq_none.mp htruth⟩
      · exact ⟨List.mem_cons_of_mem k (ih hothers l hl).1, (ih hothers l hl).2⟩

end Assignment

/-- The models of a state of the search. -/
def Models (a : Assignment) (clauses : List Clause) : Set (Nat → Bool) :=
  {τ | a.Fits τ ∧ ∀ clause ∈ clauses, clause.holds τ = true}

theorem mem_models_cons :
    τ ∈ Models a (clause :: rest) ↔ clause.holds τ = true ∧ τ ∈ Models a rest := by
  simp only [Models, Set.mem_ofPred_eq, List.forall_mem_cons]
  exact and_left_comm

/-- The second state has the models of the first, all values chosen in it, and clauses of its
literals. -/
structure Steps (a : Assignment) (clauses : List Clause) (b : Assignment) (left : List Clause) :
    Prop where
  models : Models b left = Models a clauses
  chosen : ∀ v : Nat, a[v]? ≠ none → b[v]? ≠ none
  literals : ∀ clause ∈ left, ∀ l ∈ clause, ∃ other ∈ clauses, l ∈ other

theorem Steps.refl (a : Assignment) (clauses : List Clause) : Steps a clauses a clauses :=
  ⟨rfl, fun _ h => h, fun clause hclause _ hl => ⟨clause, hclause, hl⟩⟩

theorem Steps.trans (h : Steps a clauses b left) (k : Steps b left d rest) :
    Steps a clauses d rest where
  models := k.models.trans h.models
  chosen v hv := k.chosen v (h.chosen v hv)
  literals clause hclause l hl :=
    have ⟨other, hother, hl⟩ := k.literals clause hclause l hl
    h.literals other hother l hl

/-- Every clause has a literal, and all variables are open. -/
def Open (a : Assignment) (clauses : List Clause) : Prop :=
  ∀ clause ∈ clauses, clause ≠ [] ∧ ∀ l ∈ clause, a[l.natAbs]? = none

/-- The first clause has been settled, or its one literal has been made true. -/
theorem Steps.drop (hmodels : Models b rest = Models a (clause :: rest))
    (hchosen : ∀ v : Nat, a[v]? ≠ none → b[v]? ≠ none) (h : Steps b rest d left) :
    Steps a (clause :: rest) d left where
  models := h.models.trans hmodels
  chosen v hv := h.chosen v (hchosen v hv)
  literals c hc l hl :=
    have ⟨other, hother, hl⟩ := h.literals c hc l hl
    ⟨other, List.mem_cons_of_mem clause hother, hl⟩

theorem models_of_reduce_eq_none (h : a.reduce clause = none) :
    Models a rest = Models a (clause :: rest) := by
  ext τ
  rw [mem_models_cons]
  exact ⟨fun hτ => ⟨Assignment.holds_of_reduce_eq_none h hτ.1, hτ⟩, fun hτ => hτ.2⟩

theorem models_of_reduce_eq_unit {l : Literal} (h : a.reduce clause = some [l]) :
    Models (a.assume l) rest = Models a (clause :: rest) := by
  have hopen := (Assignment.open_of_reduce h l (List.mem_singleton_self l)).2
  ext τ
  rw [mem_models_cons, Models, Models, Set.mem_ofPred_eq, Set.mem_ofPred_eq,
    Assignment.fits_assume hopen]
  have hclause (hτ : a.Fits τ) : clause.holds τ = l.holds τ := by
    rw [← Assignment.holds_reduce h hτ, Clause.holds_cons, Clause.holds_nil, Bool.or_false]
  constructor
  · rintro ⟨⟨hτ, hl⟩, hrest⟩
    exact ⟨(hclause hτ).trans hl, hτ, hrest⟩
  · rintro ⟨hl, hτ, hrest⟩
    exact ⟨⟨hτ, (hclause hτ).symm.trans hl⟩, hrest⟩

theorem models_propagateOnce_eq_none (h : propagateOnce a clauses = none) :
    Models a clauses = ∅ := by
  induction clauses generalizing a with
  | nil => cases h
  | cons clause rest ih =>
    rw [propagateOnce] at h
    split at h
    · next hreduce => rw [← models_of_reduce_eq_none hreduce, ih h]
    · next hreduce =>
      -- nothing is left of the first clause
      apply Set.eq_empty_of_forall_notMem
      intro τ hτ
      have hempty := Assignment.holds_reduce hreduce hτ.1
      rw [(mem_models_cons.mp hτ).1, Clause.holds_nil] at hempty
      cases hempty
    · next hreduce => rw [← models_of_reduce_eq_unit hreduce, ih h]
    · have hrest := ih (Option.map_eq_none_iff.mp h)
      apply Set.eq_empty_of_forall_notMem
      intro τ hτ
      rw [mem_models_cons, hrest] at hτ
      exact hτ.2

theorem steps_of_propagateOnce (h : propagateOnce a clauses = some (b, left)) :
    Steps a clauses b left := by
  induction clauses generalizing a left with
  | nil => cases h; exact .refl _ _
  | cons clause rest ih =>
    rw [propagateOnce] at h
    split at h
    · next hreduce => exact .drop (models_of_reduce_eq_none hreduce) (fun _ hv => hv) (ih h)
    · cases h
    · next l hreduce =>
      -- one literal is left and is made true
      refine .drop (models_of_reduce_eq_unit hreduce) (fun v hv => ?_) (ih h)
      rw [Assignment.assume, Std.TreeMap.getElem?_insert]
      split
      · exact Option.some_ne_none _
      · exact hv
    · next remaining _ _ hreduce =>
      -- the first clause stays, without its false literals
      obtain ⟨⟨d, others⟩, hrest, heq⟩ := Option.map_eq_some_iff.mp h
      cases heq
      have hsteps := ih hrest
      refine ⟨?_, hsteps.chosen, ?_⟩
      · ext τ
        rw [mem_models_cons, mem_models_cons, hsteps.models]
        exact and_congr_left fun hτ => by rw [Assignment.holds_reduce hreduce hτ.1]
      · intro c hc l hl
        rcases List.mem_cons.mp hc with rfl | hc
        · exact ⟨clause, List.mem_cons_self, (Assignment.open_of_reduce hreduce l hl).1⟩
        · obtain ⟨other, hother, hl⟩ := hsteps.literals c hc l hl
          exact ⟨other, List.mem_cons_of_mem clause hother, hl⟩

/-- A round never has more clauses left than it was given; if it has as many, it has chosen nothing
and what is left is open. -/
theorem length_of_propagateOnce (h : propagateOnce a clauses = some (b, left)) :
    left.length ≤ clauses.length ∧ (left.length = clauses.length → b = a ∧ Open a left) := by
  induction clauses generalizing a left with
  | nil => cases h; exact ⟨Nat.le_refl _, fun _ => ⟨rfl, fun _ hc => (List.not_mem_nil hc).elim⟩⟩
  | cons clause rest ih =>
    rw [propagateOnce] at h
    rw [List.length_cons]
    split at h
    · have hle := (ih h).1
      exact ⟨by omega, fun heq => by omega⟩
    · cases h
    · have hle := (ih h).1
      exact ⟨by omega, fun heq => by omega⟩
    · next remaining hne _ hreduce =>
      obtain ⟨⟨d, others⟩, hrest, heq⟩ := Option.map_eq_some_iff.mp h
      cases heq
      obtain ⟨hle, hsame⟩ := ih hrest
      rw [List.length_cons]
      refine ⟨by omega, fun heq => ?_⟩
      obtain ⟨hchosen, hopen⟩ := hsame (by omega)
      refine ⟨hchosen, fun c hc => ?_⟩
      rcases List.mem_cons.mp hc with rfl | hc
      · exact ⟨hne, fun l hl => (Assignment.open_of_reduce hreduce l hl).2⟩
      · exact hopen c hc

theorem models_of_propagateRounds_eq_none {rounds : Nat}
    (h : propagateRounds rounds a clauses = none) : Models a clauses = ∅ := by
  induction rounds generalizing a clauses with
  | zero => cases h
  | succ rounds ih =>
    rw [propagateRounds] at h
    split at h
    · next honce => exact models_propagateOnce_eq_none honce
    · next honce =>
      split at h
      · rw [← (steps_of_propagateOnce honce).models, ih h]
      · cases h

/-- With more rounds than clauses, the last round settles nothing. -/
theorem steps_of_propagateRounds {rounds : Nat} (hrounds : clauses.length < rounds)
    (h : propagateRounds rounds a clauses = some (b, left)) :
    Steps a clauses b left ∧ Open b left := by
  -- a round that is not the last has settled a clause, so clauses become fewer than rounds
  induction rounds generalizing a clauses with
  | zero => exact absurd hrounds (Nat.not_lt_zero _)
  | succ rounds ih =>
    rw [propagateRounds] at h
    split at h
    · cases h
    · next honce =>
      have hsteps := steps_of_propagateOnce honce
      split at h
      · next hless =>
        obtain ⟨hafter, hopen⟩ := ih (by omega) h
        exact ⟨hsteps.trans hafter, hopen⟩
      · next hsame =>
        obtain ⟨hle, hopen⟩ := length_of_propagateOnce honce
        cases h
        obtain ⟨rfl, hopen⟩ := hopen (by omega)
        exact ⟨hsteps, hopen⟩

/-- **Propagation keeps the models**, and ends in open clauses. -/
theorem steps_of_propagate (h : propagate a clauses = some (b, left)) :
    Steps a clauses b left ∧ Open b left :=
  steps_of_propagateRounds (Nat.lt_succ_self _) h

/-- **Propagation fails only where there is no model.** -/
theorem models_of_propagate_eq_none (h : propagate a clauses = none) : Models a clauses = ∅ :=
  models_of_propagateRounds_eq_none h

/-- What the search does with one value of a variable. -/
def attempt (a : Assignment) (clauses : List Clause) (rest : List Nat) (v : Nat) (value : Bool) :
    Option Assignment :=
  match propagate (a.insert v value) clauses with
  | none => none
  | some (a, left) => branch a left rest

theorem branch_nil : branch a clauses [] = if clauses.isEmpty then some a else none := rfl

theorem branch_cons (vars : List Nat) :
    branch a clauses (v :: vars) =
      if clauses.isEmpty then some a
      else if a.contains v then branch a clauses vars
      else attempt a clauses vars v false <|> attempt a clauses vars v true :=
  rfl

theorem attempt_sound {vars : List Nat} (hv : a[v]? = none)
    (ih : ∀ (a : Assignment) (clauses : List Clause), branch a clauses vars = some b →
      τ ∈ Models a clauses)
    (h : attempt a clauses vars v value = some b) : τ ∈ Models a clauses := by
  rw [attempt] at h
  split at h
  · cases h
  · next hpropagate =>
    have hτ := ih _ _ h
    rw [(steps_of_propagate hpropagate).1.models] at hτ
    exact ⟨((Assignment.fits_insert hv).mp hτ.1).1, hτ.2⟩

theorem branch_sound {vars : List Nat} (h : branch a clauses vars = some b) (hτ : b.Fits τ) :
    τ ∈ Models a clauses := by
  have hdone (a : Assignment) (clauses : List Clause) (hempty : clauses.isEmpty = true)
      (h : some a = some b) : τ ∈ Models a clauses := by
    rw [List.isEmpty_iff.mp hempty]
    exact ⟨Option.some.inj h ▸ hτ, fun _ hc => (List.not_mem_nil hc).elim⟩
  induction vars generalizing a clauses with
  | nil =>
    rw [branch_nil] at h
    split at h
    · next hempty => exact hdone a clauses hempty h
    · cases h
  | cons v vars ih =>
    rw [branch_cons] at h
    split at h
    · next hempty => exact hdone a clauses hempty h
    · split at h
      · exact ih h
      · next hv =>
        have hopen : a[v]? = none := Std.TreeMap.getElem?_eq_none (by simpa using hv)
        rcases (Option.orElse_eq_some _ _ _).mp h with h | ⟨-, h⟩
        · exact attempt_sound hopen (fun _ _ => ih) h
        · exact attempt_sound hopen (fun _ _ => ih) h

/-- A value that leads to nothing has no model, if the search of the other variables is complete. -/
theorem models_of_attempt_eq_none {vars : List Nat}
    (hvars : ∀ clause ∈ clauses, ∀ l ∈ clause, a[l.natAbs]? = none → l.natAbs ∈ v :: vars)
    (ih : ∀ (a : Assignment) (clauses : List Clause), Open a clauses →
      (∀ clause ∈ clauses, ∀ l ∈ clause, a[l.natAbs]? = none → l.natAbs ∈ vars) →
      branch a clauses vars = none → Models a clauses = ∅)
    (h : attempt a clauses vars v value = none) : Models (a.insert v value) clauses = ∅ := by
  rw [attempt] at h
  split at h
  · next hpropagate => exact models_of_propagate_eq_none hpropagate
  · next hpropagate =>
    obtain ⟨hsteps, hopen⟩ := steps_of_propagate hpropagate
    rw [← hsteps.models]
    refine ih _ _ hopen (fun clause hclause l hl hnone => ?_) h
    obtain ⟨other, hother, hl⟩ := hsteps.literals clause hclause l hl
    -- a variable that is still open was open before, and it is not `v`
    have hbefore : (a.insert v value)[l.natAbs]? = none := by
      by_contra hsome
      exact hsteps.chosen _ hsome hnone
    rw [Std.TreeMap.getElem?_insert] at hbefore
    split at hbefore
    · cases hbefore
    · next hne =>
      rcases List.mem_cons.mp (hvars other hother l hl hbefore) with heq | hmem
      · exact absurd (by rw [heq]; exact Std.ReflCmp.compare_self) hne
      · exact hmem

theorem branch_complete {vars : List Nat} (hopen : Open a clauses)
    (hvars : ∀ clause ∈ clauses, ∀ l ∈ clause, a[l.natAbs]? = none → l.natAbs ∈ vars)
    (h : branch a clauses vars = none) : Models a clauses = ∅ := by
  induction vars generalizing a clauses with
  | nil =>
    rw [branch_nil] at h
    split at h
    · cases h
    · next hne =>
      -- a clause that is left would have an open variable, and there is none
      obtain ⟨clause, hclause⟩ := List.exists_mem_of_ne_nil clauses (by simpa using hne)
      obtain ⟨hclause', hnone⟩ := hopen clause hclause
      obtain ⟨l, hl⟩ := List.exists_mem_of_ne_nil clause hclause'
      exact absurd (hvars clause hclause l hl (hnone l hl)) List.not_mem_nil
  | cons v vars ih =>
    rw [branch_cons] at h
    split at h
    · cases h
    · split at h
      · next hv =>
        -- a variable that has a value is not tried
        refine ih hopen (fun clause hclause l hl hnone => ?_) h
        rcases List.mem_cons.mp (hvars clause hclause l hl hnone) with heq | hmem
        · rw [heq] at hnone
          simp [Std.TreeMap.contains_eq_isSome_getElem?, hnone] at hv
        · exact hmem
      · next hv =>
        have hv : a[v]? = none := Std.TreeMap.getElem?_eq_none (by simpa using hv)
        obtain ⟨hfalse, htrue⟩ := (Option.orElse_eq_none _ _).mp h
        apply Set.eq_empty_of_forall_notMem
        intro τ hτ
        -- the value that a model would give to `v` has been tried
        have hattempt : attempt a clauses vars v (τ v) = none := by
          cases τ v
          · exact hfalse
          · exact htrue
        have hmem : τ ∈ Models (a.insert v (τ v)) clauses :=
          ⟨(Assignment.fits_insert hv).mpr ⟨hτ.1, rfl⟩, hτ.2⟩
        have hempty := models_of_attempt_eq_none hvars (fun _ _ ho hv h => ih ho hv h) hattempt
        rw [hempty] at hmem
        exact hmem

/-- **What the search finds satisfies all clauses**, whatever the open variables are. -/
theorem findModel_sound (h : findModel clauses = some b) (hτ : b.Fits τ) :
    ∀ clause ∈ clauses, clause.holds τ = true := by
  rw [findModel] at h
  split at h
  · cases h
  · next hpropagate =>
    have hmem := branch_sound h hτ
    rw [(steps_of_propagate hpropagate).1.models] at hmem
    exact hmem.2

/-- **Clauses for which the search finds nothing have no model.** -/
theorem findModel_complete (h : findModel clauses = none) (τ : Nat → Bool) :
    ¬∀ clause ∈ clauses, clause.holds τ = true := by
  intro hτ
  have hmem : τ ∈ Models ∅ clauses := ⟨Assignment.fits_empty, hτ⟩
  rw [findModel] at h
  split at h
  · next hpropagate =>
    rw [models_of_propagate_eq_none hpropagate] at hmem
    exact hmem
  · next hpropagate =>
    obtain ⟨hsteps, hopen⟩ := steps_of_propagate hpropagate
    rw [← hsteps.models, branch_complete hopen (fun clause hclause l hl _ => ?_) h] at hmem
    · exact hmem
    · rw [mentioned, Std.TreeSet.mem_toList, Std.TreeSet.mem_ofList, List.contains_iff_mem]
      exact List.mem_map_of_mem (List.mem_flatten.mpr ⟨clause, hclause, hl⟩)

end IntCircuit.Search
