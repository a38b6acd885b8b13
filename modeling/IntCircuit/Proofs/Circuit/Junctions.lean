import IntCircuit.Proofs.Circuit.Gates

/-!
# Junctions collect what decides a gate

A junction that has met the absorbing constant forgets its inputs, and whoever feeds it may stop
then. Neither changes the value of the gate over all inputs.

## Main definitions

* `Junction.Reads`: what a junction has kept of inputs with given values

## Main results

* `Build.ensures_accumulate`: the gate over a junction has the value of all its inputs
* `Junction.ensures_feed`: inputs built one by one, up to the one that decides
* `GateCall.ensures_truth`, `GateCall.ensures`: every call computes its truth function
-/

namespace IntCircuit

namespace Connective

theorem join_append (op : Connective) (values others : List Bool) :
    op.join (values ++ others) =
      if op.join values = op.absorbing then op.absorbing else op.join others := by
  cases op <;> simp only [join, List.all_append, List.any_append, absorbing]
  · by_cases h : values.all id = true <;> simp [h]
  · by_cases h : values.any id = true <;> simp [h]

end Connective

namespace Junction

/-- What a junction has kept of inputs with these values: if it is decided, that they decide the
gate, and else nodes of the circuit that make the same of it. -/
structure Reads (j : Junction) (d : Circuit) (op : Connective)
    (values : (Nat → Bool) → List Bool) : Prop where
  connective : j.op = op
  owns : ∀ n ∈ j.inputs.toList, d.Owns n
  decided : j.isDecided = true → ∀ σ, op.join (values σ) = op.absorbing
  undecided : j.isDecided = false → ∀ σ,
    op.join (j.inputs.toList.map (Node.eval σ)) = op.join (values σ)

variable {c d : Circuit} {j : Junction} {op : Connective} {values : (Nat → Bool) → List Bool}

theorem Reads.empty (d : Circuit) (op : Connective) :
    (Junction.empty op).Reads d op fun _ => [] :=
  ⟨rfl, by simp [Junction.empty], fun h => absurd h Bool.false_ne_true, fun _ _ => rfl⟩

theorem Reads.mono (hcd : c ≤ d) (h : j.Reads c op values) : j.Reads d op values :=
  ⟨h.connective, fun n hn => (h.owns n hn).mono hcd, h.decided, h.undecided⟩

/-- A decided junction needs no more inputs. -/
theorem Reads.append_of_decided (h : j.Reads d op values) (hj : j.isDecided = true)
    (others : (Nat → Bool) → List Bool) : j.Reads d op fun σ => values σ ++ others σ := by
  refine ⟨h.connective, h.owns, ?_, ?_⟩
  · intro _ σ
    rw [Connective.join_append, if_pos (h.decided hj σ)]
  · intro hopen
    rw [hj] at hopen
    cases hopen

theorem Reads.add (h : j.Reads d op values) {n : Node} {value : (Nat → Bool) → Bool}
    (hn : d.Reads n value) : (j.add n).Reads d op fun σ => values σ ++ [value σ] := by
  by_cases hj : j.isDecided = true
  · rw [Junction.add.eq_def, if_pos hj]
    exact h.append_of_decided hj _
  have hopen : j.isDecided = false := Bool.eq_false_iff.mpr hj
  have hkept : ∀ σ, op.join (values σ ++ [value σ]) =
      op.join (j.inputs.toList.map (Node.eval σ) ++ [value σ]) := fun σ => by
    rw [Connective.join_append, Connective.join_append, h.undecided hopen σ]
  -- an input that is kept
  have hpush : ({ j with inputs := j.inputs.push n } : Junction).Reads d op
      fun σ => values σ ++ [value σ] := by
    refine ⟨h.connective, ?_, fun hdecided => absurd hdecided hj, ?_⟩
    · intro m hm
      rw [Array.toList_push] at hm
      rcases List.mem_append.mp hm with hm | hm
      · exact h.owns m hm
      · exact List.mem_singleton.mp hm ▸ hn.owns
    · intro _ σ
      rw [Array.toList_push, List.map_append, List.map_singleton, hn.eval, hkept]
  cases n with
  | const v =>
    rw [Junction.add.eq_def, if_neg hj]
    simp only [h.connective]
    split
    next hsettle =>
      refine ⟨rfl, fun m hm => by simp at hm, fun _ σ => ?_,
        fun hopen => absurd hopen.symm Bool.false_ne_true⟩
      rw [Connective.join_append, ← hn.eval σ, Node.eval_const, hsettle]
      simp
    next hignored =>
      -- a constant that does not decide is dropped, for it is the identity
      refine ⟨h.connective, h.owns, fun hdecided => absurd hdecided hj, fun _ σ => ?_⟩
      rw [hkept, Connective.join_append, ← hn.eval σ, Node.eval_const, Connective.join_cons,
        if_neg hignored, Connective.join_nil, h.undecided hopen]
      split
      · assumption
      next hjoin =>
        rw [Connective.identity]
        revert hjoin
        cases op.join (values σ) <;> cases op.absorbing <;> simp
  | var _ => rw [Junction.add.eq_def, if_neg hj]; exact hpush
  | nary _ _ _ => rw [Junction.add.eq_def, if_neg hj]; exact hpush
  | not _ _ => rw [Junction.add.eq_def, if_neg hj]; exact hpush
  | ite _ _ _ _ => rw [Junction.add.eq_def, if_neg hj]; exact hpush

/-- Adding nodes one by one. -/
theorem Reads.addAll (h : j.Reads d op values) {nodes : List Node} (hown : ∀ n ∈ nodes, d.Owns n) :
    (nodes.foldl Junction.add j).Reads d op fun σ => values σ ++ nodes.map (Node.eval σ) := by
  induction nodes generalizing j values with
  | nil => simpa using h
  | cons n rest ih =>
    have hn := h.add (hown n List.mem_cons_self).reads
    simpa using ih hn fun m hm => hown m (List.mem_cons_of_mem n hm)

/-- Adding nodes one by one up to the one that decides. -/
theorem Reads.addUntilDecided (h : j.Reads d op values) {nodes : List Node}
    (hown : ∀ n ∈ nodes, d.Owns n) :
    (j.addUntilDecided nodes).Reads d op fun σ => values σ ++ nodes.map (Node.eval σ) := by
  induction nodes generalizing j values with
  | nil => simpa [Junction.addUntilDecided] using h
  | cons n rest ih =>
    have hn := h.add (hown n List.mem_cons_self).reads
    rw [Junction.addUntilDecided]
    split
    -- what is left out could not have changed a decided junction
    next hdecided => simpa using hn.append_of_decided hdecided fun σ => rest.map (Node.eval σ)
    next => simpa using ih hn fun m hm => hown m (List.mem_cons_of_mem n hm)

end Junction

namespace Build

variable {c : Circuit}

/-- **The gate over a junction** has the value of all inputs that the junction has been given. -/
theorem ensures_accumulate (hc : c.Sound) {j : Junction} {op : Connective}
    {values : (Nat → Bool) → List Bool} (hj : j.Reads c op values) :
    Ensures c (accumulate j) fun n d => d.Reads n fun σ => op.join (values σ) := by
  rw [accumulate, hj.connective]
  split
  next hdecided => exact ensures_pure hc trivial fun σ => (hj.decided hdecided σ).symm
  next hopen =>
    apply (ensures_nary hc op hj.owns).reads_congr
    intro σ
    exact hj.undecided (Bool.eq_false_iff.mpr hopen) σ

instance (nodes : List Node) : Grows (anyOf nodes) := inferInstanceAs (Grows (accumulate _))

instance (nodes : List Node) : Grows (allOf nodes) := inferInstanceAs (Grows (accumulate _))

theorem ensures_anyOf (hc : c.Sound) {nodes : List Node} (hown : ∀ n ∈ nodes, c.Owns n) :
    Ensures c (anyOf nodes) fun n d => d.Reads n fun σ => nodes.any (Node.eval σ) := by
  apply (ensures_accumulate hc ((Junction.Reads.empty c .or).addUntilDecided hown)).reads_congr
  intro σ
  simp [Connective.join, List.any_map]

theorem ensures_allOf (hc : c.Sound) {nodes : List Node} (hown : ∀ n ∈ nodes, c.Owns n) :
    Ensures c (allOf nodes) fun n d => d.Reads n fun σ => nodes.all (Node.eval σ) := by
  apply (ensures_accumulate hc ((Junction.Reads.empty c .and).addUntilDecided hown)).reads_congr
  intro σ
  simp [Connective.join, List.all_map]

end Build

namespace Junction

variable {α : Type} {c : Circuit} {op : Connective}

open Build

instance (make : α → Build Node) [∀ a, Grows (make a)] (j : Junction) (items : List α) :
    Grows (feed make j items) := by
  induction items generalizing j with
  | nil => rw [feed]; infer_instance
  | cons a rest ih =>
    have hrest (n : Node) : Grows (if (j.add n).isDecided then pure (j.add n)
        else feed make (j.add n) rest) := by
      split <;> infer_instance
    rw [feed]
    infer_instance

/-- Inputs built one by one, up to the one that decides, make of the gate what all would. -/
theorem ensures_feed (value : (Nat → Bool) → α → Bool) {make : α → Build Node}
    [∀ a, Grows (make a)] {items : List α} (hc : c.Sound)
    (hmake : ∀ a ∈ items, ∀ d, c ≤ d → d.Sound →
      Ensures d (make a) fun n e => e.Reads n fun σ => value σ a)
    {j : Junction} {values : (Nat → Bool) → List Bool} (hj : j.Reads c op values) :
    Ensures c (feed make j items) fun k d =>
      k.Reads d op fun σ => values σ ++ items.map (value σ) := by
  induction items generalizing c j values with
  | nil =>
    rw [feed]
    exact .pure hc (by simpa using hj)
  | cons a rest ih =>
    have hgrows (n : Node) : Grows (if (j.add n).isDecided then pure (j.add n)
        else feed make (j.add n) rest) := by
      split <;> infer_instance
    rw [feed]
    refine (hmake a List.mem_cons_self c (le_refl c) hc).bind fun n d hcd hd hn => ?_
    have hadd := (hj.mono hcd).add hn
    -- once decided, the nodes that are left are not even made
    dsimp only
    split
    next hdecided =>
      exact .pure hd (by simpa using hadd.append_of_decided hdecided fun σ => rest.map (value σ))
    next =>
      refine (ih hd (fun b hb e hde => hmake b (List.mem_cons_of_mem a hb) e (hcd.trans hde))
        hadd).mono fun k e _ _ hk => by simpa using hk

end Junction

namespace GateCall

/-- **Every call computes its truth function**, whichever rule folds it and whatever is shared. -/
theorem ensures_truth {c : Circuit} (hc : c.Sound) {call : GateCall Node}
    (hown : ∀ n ∈ call.operands, c.Owns n) :
    Build.Ensures c call.build fun n d => d.Reads n fun σ => call.truth (Node.eval σ) := by
  cases call with
  | and a b =>
    exact Build.ensures_and hc (hown a (by simp [operands])) (hown b (by simp [operands]))
  | or a b =>
    exact Build.ensures_or hc (hown a (by simp [operands])) (hown b (by simp [operands]))
  | join op inputs => exact Build.ensures_nary hc op hown
  | not a => exact Build.ensures_not hc (hown a (by simp [operands]))
  | ite condition consequent alternative =>
    exact Build.ensures_ite hc (hown _ (by simp [operands])) (hown _ (by simp [operands]))
      (hown _ (by simp [operands]))
  | xor a b =>
    exact Build.ensures_xor hc (hown a (by simp [operands])) (hown b (by simp [operands]))
  | iff a b =>
    exact Build.ensures_iff hc (hown a (by simp [operands])) (hown b (by simp [operands]))
  | implies a b =>
    exact Build.ensures_implies hc (hown a (by simp [operands])) (hown b (by simp [operands]))
  | sum a b carryIn =>
    exact Build.ensures_sum hc (hown a (by simp [operands])) (hown b (by simp [operands]))
      (hown carryIn (by simp [operands]))
  | carry a b carryIn =>
    exact Build.ensures_carry hc (hown a (by simp [operands])) (hown b (by simp [operands]))
      (hown carryIn (by simp [operands]))
  | accumulate op inputs =>
    apply (Build.ensures_accumulate hc ((Junction.Reads.empty c op).addAll hown)).reads_congr
    intro σ
    simp [truth, operands]

/-- As long as labels are positive, a call leaves the circuit valid. -/
theorem ensures {c : Circuit} (hc : c.Valid) {call : GateCall Node}
    (hown : ∀ n ∈ call.operands, c.Owns n) (hl : (call.build.run c).2.maxLabel ≤ labelLimit) :
    c.Reaches (call.build.run c).2 ∧ (call.build.run c).2.Valid ∧
      (call.build.run c).2.Reads (call.build.run c).1 fun σ => call.truth (Node.eval σ) := by
  obtain ⟨hreach, hsound, hreads⟩ := ensures_truth hc hown (lt_labelModulus hl)
  exact ⟨hreach, ⟨hsound, hl⟩, hreads⟩

end GateCall

end IntCircuit
