import IntCircuit.Cnf.Encoder
import IntCircuit.Proofs.Circuit.Below

/-!
# What the clauses of a gate say

The clauses that define a gate hold when the variable of its label has the value that its operator
gives to the variables of its inputs' labels, and they mention no other variables.

## Main results

* `Node.definition_holds`: the clauses of a gate hold where its label follows from its inputs
* `Node.natAbs_of_mem_definition`: the literals of those clauses name the gate or an input
-/

namespace IntCircuit

variable {τ : Nat → Bool}

theorem Literal.holds_of_pos {literal : Literal} (h : 0 < literal) :
    Literal.holds τ literal = τ literal.natAbs := by
  simp [Literal.holds, h]

theorem Literal.holds_neg {literal : Literal} (h : 0 < literal) :
    Literal.holds τ (Label.neg literal) = !τ literal.natAbs := by
  have hneg : ¬0 < -literal := Int.not_lt.mpr (Int.neg_nonpos_of_nonneg (Int.le_of_lt h))
  rw [Literal.holds, Label.natAbs_neg, Label.neg_of_pos h, decide_eq_false hneg]
  cases τ (Int.natAbs literal) <;> rfl

@[simp] theorem Clause.holds_nil : Clause.holds τ [] = false := rfl

@[simp] theorem Clause.holds_cons (literal : Literal) (rest : Clause) :
    Clause.holds τ (literal :: rest) = (Literal.holds τ literal || Clause.holds τ rest) := rfl

theorem Clause.holds_append (clause rest : Clause) :
    Clause.holds τ (clause ++ rest) = (Clause.holds τ clause || Clause.holds τ rest) :=
  List.any_append

theorem Clause.holds_of_pos {literals : List Int} (h : ∀ l ∈ literals, 0 < l) :
    Clause.holds τ literals = literals.any fun l => τ l.natAbs := by
  induction literals with
  | nil => rfl
  | cons l rest ih =>
    rw [holds_cons, List.any_cons, Literal.holds_of_pos (h l List.mem_cons_self),
      ih fun k hk => h k (List.mem_cons_of_mem l hk)]

theorem Clause.holds_map_neg {literals : List Int} (h : ∀ l ∈ literals, 0 < l) :
    Clause.holds τ (literals.map Label.neg) = literals.any fun l => !τ l.natAbs := by
  induction literals with
  | nil => rfl
  | cons l rest ih =>
    rw [List.map_cons, holds_cons, List.any_cons, Literal.holds_neg (h l List.mem_cons_self),
      ih fun k hk => h k (List.mem_cons_of_mem l hk)]

theorem Clause.foldl_max_le {clause : Clause} {start limit : Nat} :
    clause.foldl (fun greatest literal => max greatest literal.natAbs) start ≤ limit ↔
      start ≤ limit ∧ ∀ l ∈ clause, l.natAbs ≤ limit := by
  induction clause generalizing start with
  | nil => simp
  | cons l rest ih => rw [List.foldl_cons, ih, List.forall_mem_cons, Nat.max_le, and_assoc]

theorem Clause.maxVariable_le {clause : Clause} {limit : Nat} :
    clause.maxVariable ≤ limit ↔ ∀ l ∈ clause, l.natAbs ≤ limit := by
  rw [maxVariable, foldl_max_le]
  exact and_iff_right (Nat.zero_le limit)

/-- The clauses of a connective hold where its output is what it makes of its inputs. -/
theorem Connective.definition_holds (op : Connective) {output : Int} {inputs : List Int}
    (ho : 0 < output) (hi : ∀ l ∈ inputs, 0 < l) :
    (op.definition output inputs).all (Clause.holds τ) = true ↔
      τ output.natAbs = op.join (inputs.map fun l => τ l.natAbs) := by
  -- one long clause for one direction, and a short one for each input for the other
  cases op with
  | and =>
    have hrest : ∀ l ∈ inputs,
        Clause.holds τ [l, Label.neg output] = (τ l.natAbs || !τ output.natAbs) :=
      fun l hl => by
        rw [Clause.holds_cons, Clause.holds_cons, Literal.holds_of_pos (hi l hl),
          Literal.holds_neg ho, Clause.holds_nil, Bool.or_false]
    rw [definition, List.all_cons, Clause.holds_append, Clause.holds_map_neg hi, List.all_map,
      Clause.holds_cons, Literal.holds_of_pos ho, join, List.all_map]
    -- a false output makes every short clause hold, a true one the long clause
    cases hout : τ output.natAbs
    · simp +contextual [hrest, hout]
    · simp +contextual [hrest, hout]
  | or =>
    have hrest : ∀ l ∈ inputs,
        Clause.holds τ [Label.neg l, output] = (!τ l.natAbs || τ output.natAbs) :=
      fun l hl => by
        rw [Clause.holds_cons, Clause.holds_cons, Literal.holds_neg (hi l hl),
          Literal.holds_of_pos ho, Clause.holds_nil, Bool.or_false]
    rw [definition, List.all_cons, Clause.holds_append, Clause.holds_of_pos hi, List.all_map,
      Clause.holds_cons, Literal.holds_neg ho, join, List.any_map]
    cases hout : τ output.natAbs
    · simp +contextual [hrest, hout]
    · simp +contextual [hrest, hout]

/-- The literals of a connective's clauses name its output or one of its inputs. -/
theorem Connective.natAbs_of_mem_definition {op : Connective} {output : Int} {inputs : List Int}
    {clause : Clause} (hclause : clause ∈ op.definition output inputs) {l : Literal}
    (hl : l ∈ clause) : l.natAbs = output.natAbs ∨ ∃ k ∈ inputs, l.natAbs = k.natAbs := by
  -- the long clause names all of them, a short one the output and one input
  cases op with
  | and =>
    rcases List.mem_cons.mp hclause with rfl | hclause
    · rcases List.mem_append.mp hl with hl | hl
      · obtain ⟨k, hk, rfl⟩ := List.mem_map.mp hl
        exact .inr ⟨k, hk, Label.natAbs_neg k⟩
      · exact .inl (congrArg Int.natAbs (List.mem_singleton.mp hl))
    · obtain ⟨k, hk, rfl⟩ := List.mem_map.mp hclause
      simp only [List.mem_cons, List.not_mem_nil, or_false] at hl
      rcases hl with rfl | rfl
      · exact .inr ⟨_, hk, rfl⟩
      · exact .inl (Label.natAbs_neg output)
  | or =>
    rcases List.mem_cons.mp hclause with rfl | hclause
    · rcases List.mem_append.mp hl with hl | hl
      · exact .inr ⟨l, hl, rfl⟩
      · rw [List.mem_singleton.mp hl]
        exact .inl (Label.natAbs_neg output)
    · obtain ⟨k, hk, rfl⟩ := List.mem_map.mp hclause
      simp only [List.mem_cons, List.not_mem_nil, or_false] at hl
      rcases hl with rfl | rfl
      · exact .inr ⟨k, hk, Label.natAbs_neg k⟩
      · exact .inl rfl

namespace Node

/-- **The clauses of a gate hold where its label follows from the labels of its inputs.** -/
theorem definition_holds {n : Node} (hn : 0 < n.label) (hi : ∀ m ∈ n.inputs, 0 < m.label) :
    n.definition.all (Clause.holds τ) = true ↔
      τ n.label.natAbs = n.truth fun m => τ m.label.natAbs := by
  cases n with
  | const value => exact absurd hn (Int.not_lt.mpr (label_const_le value))
  | var _ => simp [definition, truth]
  | nary tag op inputs =>
    have hin : ∀ l ∈ inputs.map label, 0 < l := by
      rintro _ hl
      obtain ⟨m, hm, rfl⟩ := List.mem_map.mp hl
      exact hi m hm
    have h := op.definition_holds (τ := τ) hn hin
    rw [List.map_map] at h
    exact h
  | not tag input =>
    have hinput := hi input (List.mem_singleton_self _)
    have htag : 0 < tag.label := hn
    rw [definition, truth, label_of_tag? (n := not tag input) rfl]
    simp only [List.all_cons, List.all_nil, Clause.holds_cons, Clause.holds_nil,
      Literal.holds_of_pos hinput, Literal.holds_neg hinput, Literal.holds_of_pos htag,
      Literal.holds_neg htag]
    -- a table of four lines
    cases τ input.label.natAbs <;> cases τ tag.label.natAbs <;> decide
  | ite tag c t e =>
    have hc := hi c (by simp [inputs])
    have ht := hi t (by simp [inputs])
    have he := hi e (by simp [inputs])
    have htag : 0 < tag.label := hn
    rw [definition, truth, label_of_tag? (n := ite tag c t e) rfl]
    simp only [List.all_cons, List.all_nil, Clause.holds_cons, Clause.holds_nil,
      Literal.holds_of_pos hc, Literal.holds_neg hc, Literal.holds_of_pos ht, Literal.holds_neg ht,
      Literal.holds_of_pos he, Literal.holds_neg he, Literal.holds_of_pos htag,
      Literal.holds_neg htag]
    cases τ c.label.natAbs <;> cases τ t.label.natAbs <;> cases τ e.label.natAbs <;>
      cases τ tag.label.natAbs <;> decide

/-- The literals of a gate's clauses name the gate or one of its inputs. -/
theorem natAbs_of_mem_definition {n : Node} {clause : Clause} (hclause : clause ∈ n.definition)
    {l : Literal} (hl : l ∈ clause) :
    ∃ m, (m = n ∨ m ∈ n.inputs) ∧ l.natAbs = m.label.natAbs := by
  cases n with
  | const _ => cases hclause
  | var _ => cases hclause
  | nary tag op inputs =>
    rcases op.natAbs_of_mem_definition hclause hl with h | ⟨k, hk, h⟩
    · exact ⟨_, .inl rfl, h⟩
    · obtain ⟨m, hm, rfl⟩ := List.mem_map.mp hk
      exact ⟨m, .inr hm, h⟩
  | not tag input =>
    simp only [definition, List.mem_cons, List.not_mem_nil, or_false] at hclause
    rcases hclause with rfl | rfl <;>
      simp only [List.mem_cons, List.not_mem_nil, or_false] at hl <;>
      rcases hl with rfl | rfl <;> simp [inputs, label_of_tag? (n := not tag input) rfl]
  | ite tag c t e =>
    simp only [definition, List.mem_cons, List.not_mem_nil, or_false] at hclause
    rcases hclause with rfl | rfl | rfl | rfl <;>
      simp only [List.mem_cons, List.not_mem_nil, or_false] at hl <;>
      rcases hl with rfl | rfl | rfl <;> simp [inputs, label_of_tag? (n := ite tag c t e) rfl]

end Node

end IntCircuit
