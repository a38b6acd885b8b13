import IntCircuit.Proofs.Circuit.Valid

/-!
# Folding keeps the truth function

What `Connective.fold` leaves of a list of inputs computes what the list does, although it decides
by labels alone, and a gate over what it leaves is in normal form.

## Main definitions

* `Folded.Keeps`: what folding has to leave of a list of inputs

## Main results

* `Circuit.Sound.fold_keeps`: it does, for nodes of a sound circuit
-/

namespace IntCircuit

namespace Node

theorem distinct_sublist (nodes : List Node) : (distinct nodes).Sublist nodes := by
  induction nodes with
  | nil => exact .refl _
  | cons n rest ih => exact (List.filter_sublist.trans ih).cons_cons n

theorem nodup_distinct (nodes : List Node) : ((distinct nodes).map label).Nodup := by
  induction nodes with
  | nil => exact List.nodup_nil
  | cons n rest ih =>
    rw [distinct, List.map_cons, List.nodup_cons]
    refine ⟨?_, ih.sublist (List.filter_sublist.map label)⟩
    -- what has the label of `n` has been filtered out of the rest
    intro hmem
    obtain ⟨m, hm, heq⟩ := List.mem_map.mp hmem
    simp [heq] at hm

/-- Every label is still there. -/
theorem exists_mem_distinct {nodes : List Node} {n : Node} (h : n ∈ nodes) :
    ∃ m ∈ distinct nodes, m.label = n.label := by
  induction nodes with
  | nil => cases h
  | cons first rest ih =>
    by_cases heq : n.label = first.label
    · exact ⟨first, List.mem_cons_self, heq.symm⟩
    · -- what stands for `n` in the rest has its label, so the first node does not remove it
      have hrest : n ∈ rest := by
        rcases List.mem_cons.mp h with rfl | hrest
        · exact absurd rfl heq
        · exact hrest
      obtain ⟨m, hm, hlabel⟩ := ih hrest
      refine ⟨m, List.mem_cons_of_mem _ (List.mem_filter.mpr ⟨hm, ?_⟩), hlabel⟩
      simpa [hlabel] using heq

theorem complementary_eq_true {nodes : List Node} (h : complementary nodes = true) :
    ∃ n ∈ nodes, ∃ input, n.notInput? = some input ∧ ∃ m ∈ nodes, m.label = input.label := by
  obtain ⟨n, hn, hpair⟩ := List.any_eq_true.mp h
  cases hinput : n.notInput? with
  | none => simp [hinput] at hpair
  | some input =>
    simp only [hinput, List.any_eq_true, beq_iff_eq] at hpair
    exact ⟨n, hn, input, hinput, hpair⟩

theorem eval_of_notInput? {n input : Node} (h : n.notInput? = some input) (σ : Nat → Bool) :
    input ∈ n.inputs ∧ n.eval σ = !input.eval σ := by
  cases n <;> cases h
  exact ⟨List.mem_singleton_self _, eval_not ..⟩

theorem eval_of_constant? {n : Node} {value : Bool} (h : n.constant? = some value)
    (σ : Nat → Bool) : n.eval σ = value := by
  cases n <;> cases h
  rfl

end Node

/-- What folding has to leave of the inputs of a connective: a node of the circuit with the value
of the whole, or inputs from among them for a gate in normal form with that value. -/
def Folded.Keeps (c : Circuit) (op : Connective) (inputs : List Node) : Folded → Prop
  | node n => c.Owns n ∧ ∀ σ, n.eval σ = op.join (inputs.map (Node.eval σ))
  | gate rest =>
    rest ⊆ inputs ∧ (∀ tag : Tag, (Node.nary tag op rest).Normal) ∧
      ∀ σ, op.join (rest.map (Node.eval σ)) = op.join (inputs.map (Node.eval σ))

namespace Circuit.Sound

variable {c : Circuit}

/-- Thinning out loses no node of a circuit. -/
theorem mem_distinct (hc : c.Sound) {nodes : List Node} (hown : ∀ n ∈ nodes, c.Owns n)
    {n : Node} : n ∈ Node.distinct nodes ↔ n ∈ nodes := by
  have hsub := (Node.distinct_sublist nodes).subset
  refine ⟨fun h => hsub h, fun h => ?_⟩
  obtain ⟨m, hm, hlabel⟩ := Node.exists_mem_distinct h
  rwa [← hc.eq_of_label (hown m (hsub hm)) (hown n h) hlabel]

/-- Constants that do not settle a connective, and repeated inputs, can be left out. -/
theorem join_distinct (hc : c.Sound) (op : Connective) {inputs : List Node}
    (hown : ∀ n ∈ inputs, c.Owns n)
    (hsettle : ∀ n ∈ inputs, n.constant? ≠ some op.absorbing) (σ : Nat → Bool) :
    op.join ((Node.distinct (inputs.filter fun n => !n.isConst)).map (Node.eval σ)) =
      op.join (inputs.map (Node.eval σ)) := by
  -- it is enough that the absorbing value is among the values before if and only if it is after
  refine Connective.join_congr ⟨?_, ?_⟩
  · intro h
    exact ((Node.distinct_sublist _).trans List.filter_sublist).map _ |>.subset h
  · intro h
    obtain ⟨n, hn, heval⟩ := List.mem_map.mp h
    -- such a value does not come from a constant, for that constant would settle the connective
    have hconst : n.isConst = false := by
      cases hvalue : n.constant? with
      | none => simp [Node.isConst, hvalue]
      | some value =>
        rw [Node.eval_of_constant? hvalue] at heval
        exact absurd (heval ▸ hvalue) (hsettle n hn)
    have hfilter : n ∈ inputs.filter fun n => !n.isConst :=
      List.mem_filter.mpr ⟨hn, by simp [hconst]⟩
    have hmem := (hc.mem_distinct fun m hm => hown m (List.mem_filter.mp hm).1).mpr hfilter
    exact heval ▸ List.mem_map_of_mem hmem

/-- An input beside its negation settles a connective. -/
theorem join_of_complementary (hc : c.Sound) (op : Connective) {inputs : List Node}
    (hown : ∀ n ∈ inputs, c.Owns n) (h : Node.complementary inputs = true) (σ : Nat → Bool) :
    op.join (inputs.map (Node.eval σ)) = op.absorbing := by
  obtain ⟨n, hn, input, hinput, m, hm, hlabel⟩ := Node.complementary_eq_true h
  obtain ⟨hmem, heval⟩ := Node.eval_of_notInput? hinput σ
  obtain rfl := hc.eq_of_label (hown m hm) (hc.owns_of_mem_inputs (hown n hn) hmem).1 hlabel
  apply Connective.join_eq_absorbing
  -- one of the two has the absorbing value
  by_cases hvalue : m.eval σ = op.absorbing
  · exact hvalue ▸ List.mem_map_of_mem hm
  · have hneg : n.eval σ = op.absorbing := by
      rw [heval]
      revert hvalue
      cases m.eval σ <;> cases op.absorbing <;> simp
    exact hneg ▸ List.mem_map_of_mem hn

/-- **Folding keeps the truth function** on nodes of a sound circuit. -/
theorem fold_keeps (hc : c.Sound) (op : Connective) {inputs : List Node}
    (hown : ∀ n ∈ inputs, c.Owns n) : (op.fold inputs).Keeps c op inputs := by
  rw [Connective.fold]
  split
  next hsettle =>
    -- the absorbing constant is among the inputs
    obtain ⟨n, hn, hvalue⟩ := List.any_eq_true.mp hsettle
    refine ⟨trivial, fun σ => ?_⟩
    rw [Node.eval_const, Connective.join_eq_absorbing]
    exact List.mem_map.mpr ⟨n, hn, Node.eval_of_constant? (beq_iff_eq.mp hvalue) σ⟩
  next hsettle =>
    have hopen : ∀ n ∈ inputs, n.constant? ≠ some op.absorbing := fun n hn hvalue =>
      hsettle (List.any_eq_true.mpr ⟨n, hn, beq_iff_eq.mpr hvalue⟩)
    have hjoin := hc.join_distinct op hown hopen
    have hsub : Node.distinct (inputs.filter fun n => !n.isConst) ⊆ inputs :=
      ((Node.distinct_sublist _).trans List.filter_sublist).subset
    have hconst : ∀ n ∈ Node.distinct (inputs.filter fun n => !n.isConst), n.isConst = false :=
      fun n hn => by simpa using (List.mem_filter.mp ((Node.distinct_sublist _).subset hn)).2
    have hnodup := Node.nodup_distinct (inputs.filter fun n => !n.isConst)
    -- from here on it does not matter how the inputs were thinned out
    generalize Node.distinct (inputs.filter fun n => !n.isConst) = rest at *
    simp only
    split
    next hpair =>
      have hrest : ∀ n ∈ rest, c.Owns n := fun n hn => hown n (hsub hn)
      refine ⟨trivial, fun σ => ?_⟩
      rw [Node.eval_const, ← hjoin σ, hc.join_of_complementary op hrest hpair]
    next hpair =>
      split
      · refine ⟨trivial, fun σ => ?_⟩
        rw [Node.eval_const, ← hjoin σ, List.map_nil, Connective.join_nil]
      next n =>
        refine ⟨hown n (hsub (List.mem_singleton_self n)), fun σ => ?_⟩
        rw [← hjoin σ, List.map_singleton, Connective.join_cons, Connective.join_nil,
          Connective.identity]
        cases n.eval σ <;> cases op <;> rfl
      next hnil hone =>
        refine ⟨hsub, fun _ => ⟨?_, hconst, hnodup, by simpa using hpair⟩, hjoin⟩
        -- neither none nor one are at least two
        match rest, hnil, hone with
        | [], hnil, _ => exact absurd rfl hnil
        | [n], _, hone => exact absurd rfl (hone n)
        | _ :: _ :: _, _, _ => simp

end Circuit.Sound

end IntCircuit
