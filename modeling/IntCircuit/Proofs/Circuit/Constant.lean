import IntCircuit.Proofs.Circuit.Ensures
import IntCircuit.Proofs.Circuit.Valid
import IntCircuit.Proofs.Judgement

/-!
# Gates over constants

Every gate is folded before it is made, so that gates over constants are constants, whatever circuit
they are asked of, and none of them is made. What is built from gates keeps to this if it is built
of constants all the way.

## Main definitions

* `Build.Folds`: computations that make no gate

## Main results

* `Build.Folds.bind`, `Build.Folds.judgement`: one computation after another
* `Build.folds_nary`, `Build.folds_not`, `Build.folds_ite`: each gate
* `GateCall.folds`: each call
* `Junction.folds_feed`, `Build.folds_accumulate`: inputs one by one
-/

namespace IntCircuit

namespace Build

variable {α β : Type} {m : Build α} {post : α → Prop}

/-- Every circuit is left as it is, and the result is as wanted. -/
def Folds (m : Build α) (post : α → Prop) : Prop :=
  ∀ c : Circuit, (m.run c).2 = c ∧ post (m.run c).1

namespace Folds

variable {f : α → Build β} {mid : α → Prop} {last : β → Prop}

protected theorem pure {a : α} (h : post a) : Folds (pure a) post :=
  fun _ => ⟨rfl, h⟩

protected theorem mono (hm : Folds m post) (h : ∀ a, post a → mid a) : Folds m mid :=
  fun c => ⟨(hm c).1, h _ (hm c).2⟩

protected theorem bind (hm : Folds m mid) (hf : ∀ a, mid a → Folds (f a) last) :
    Folds (m >>= f) last := by
  intro c
  obtain ⟨hsame, hmid⟩ := hm c
  have hrun : (m >>= f).run c = (f (m.run c).1).run (m.run c).2 := rfl
  rw [hrun, hsame]
  exact hf _ hmid c

/-- A computation that looks at the circuit first. -/
protected theorem get_bind {f : Circuit → Build β} (h : ∀ c, Folds (f c) last) :
    Folds (get >>= f) last :=
  fun c => h c c

/-- What makes no gate can be put together. -/
theorem judgement : Judgement @Folds :=
  ⟨.pure, .bind⟩

end Folds

end Build

/-! ## Gates -/

/-- Nothing is left of constants: one of them settles the connective or all of them are dropped. -/
theorem Connective.fold_of_isConst (op : Connective) {inputs : List Node}
    (h : ∀ n ∈ inputs, n.isConst = true) : ∃ value, op.fold inputs = .node (.const value) := by
  have hnone : inputs.filter (fun n => !n.isConst) = [] := by
    rw [List.filter_eq_nil_iff]
    intro n hn
    simp [h n hn]
  rw [fold, hnone]
  split
  · exact ⟨_, rfl⟩
  · exact ⟨_, rfl⟩

namespace Build

variable {a b condition : Node}

theorem folds_nary (op : Connective) {inputs : List Node} (h : ∀ n ∈ inputs, n.isConst = true) :
    Folds (nary op inputs) fun n => n.isConst = true := by
  obtain ⟨value, hfold⟩ := op.fold_of_isConst h
  rw [nary, hfold]
  exact .pure rfl

theorem folds_and (ha : a.isConst = true) (hb : b.isConst = true) :
    Folds (and a b) fun n => n.isConst = true :=
  folds_nary .and (by simp [ha, hb])

theorem folds_or (ha : a.isConst = true) (hb : b.isConst = true) :
    Folds (or a b) fun n => n.isConst = true :=
  folds_nary .or (by simp [ha, hb])

theorem folds_not (ha : a.isConst = true) : Folds (not a) fun n => n.isConst = true := by
  obtain ⟨value, rfl⟩ := Node.eq_const_of_isConst ha
  exact .pure rfl

/-- A choice is one of its branches, constant or not, if the condition is constant. -/
theorem folds_ite {post : Node → Prop} (hcondition : condition.isConst = true) (ha : post a)
    (hb : post b) : Folds (ite condition a b) post := by
  obtain ⟨value, rfl⟩ := Node.eq_const_of_isConst hcondition
  rw [ite]
  cases value with
  | true => exact .pure ha
  | false => exact .pure hb

theorem folds_xor (ha : a.isConst = true) (hb : b.isConst = true) :
    Folds (xor a b) fun n => n.isConst = true :=
  (folds_not hb).bind fun _ hn => folds_ite ha hn hb

theorem folds_iff (ha : a.isConst = true) (hb : b.isConst = true) :
    Folds (iff a b) fun n => n.isConst = true :=
  (folds_not hb).bind fun _ hn => folds_ite ha hb hn

theorem folds_implies (ha : a.isConst = true) (hb : b.isConst = true) :
    Folds (implies a b) fun n => n.isConst = true :=
  (folds_not ha).bind fun _ hn => folds_or hn hb

theorem folds_sum {carryIn : Node} (ha : a.isConst = true) (hb : b.isConst = true)
    (hcarry : carryIn.isConst = true) : Folds (sum a b carryIn) fun n => n.isConst = true :=
  (folds_xor ha hb).bind fun _ hn => folds_xor hcarry hn

theorem folds_carry {carryIn : Node} (ha : a.isConst = true) (hb : b.isConst = true)
    (hcarry : carryIn.isConst = true) : Folds (carry a b carryIn) fun n => n.isConst = true := by
  refine (folds_and ha hb).bind fun _ hboth => ?_
  refine (folds_xor ha hb).bind fun _ hdiffer => ?_
  exact (folds_and hcarry hdiffer).bind fun _ hpassed => folds_or hboth hpassed

end Build

/-! ## Junctions -/

namespace Junction

variable {j : Junction}

/-- A constant decides a junction or is dropped. -/
theorem inputs_add_of_isConst (hj : j.inputs = #[]) {n : Node} (hn : n.isConst = true) :
    (j.add n).inputs = #[] := by
  obtain ⟨value, rfl⟩ := Node.eq_const_of_isConst hn
  rw [add]
  split
  · exact hj
  · split
    · rfl
    · exact hj

theorem inputs_foldl_add_of_isConst (hj : j.inputs = #[]) {nodes : List Node}
    (h : ∀ n ∈ nodes, n.isConst = true) : (nodes.foldl add j).inputs = #[] := by
  induction nodes generalizing j with
  | nil => exact hj
  | cons n rest ih =>
    obtain ⟨hn, hrest⟩ := List.forall_mem_cons.mp h
    exact ih (inputs_add_of_isConst hj hn) hrest

theorem inputs_addUntilDecided_of_isConst (hj : j.inputs = #[]) {nodes : List Node}
    (h : ∀ n ∈ nodes, n.isConst = true) : (j.addUntilDecided nodes).inputs = #[] := by
  induction nodes generalizing j with
  | nil => exact hj
  | cons n rest ih =>
    obtain ⟨hn, hrest⟩ := List.forall_mem_cons.mp h
    have hadd := inputs_add_of_isConst hj hn
    rw [addUntilDecided]
    split
    · exact hadd
    · exact ih hadd hrest

/-- Constants that are built for the items of a list. -/
theorem folds_feed {α : Type} {make : α → Build Node} {items : List α}
    (hmake : ∀ a ∈ items, Build.Folds (make a) fun n => n.isConst = true) (hj : j.inputs = #[]) :
    Build.Folds (feed make j items) fun j => j.inputs = #[] := by
  induction items generalizing j with
  | nil => exact .pure hj
  | cons a rest ih =>
    rw [feed]
    refine (hmake a List.mem_cons_self).bind fun n hn => ?_
    have hadd := inputs_add_of_isConst hj hn
    dsimp only
    split
    · exact .pure hadd
    · exact ih (fun a ha => hmake a (List.mem_cons_of_mem _ ha)) hadd

end Junction

namespace Build

/-- A junction without inputs is decided or has met nothing that matters. -/
theorem folds_accumulate {j : Junction} (hj : j.inputs = #[]) :
    Folds (accumulate j) fun n => n.isConst = true := by
  rw [accumulate]
  split
  · exact .pure rfl
  · exact folds_nary _ (by simp [hj])

theorem folds_anyOf {nodes : List Node} (h : ∀ n ∈ nodes, n.isConst = true) :
    Folds (anyOf nodes) fun n => n.isConst = true :=
  folds_accumulate (Junction.inputs_addUntilDecided_of_isConst rfl h)

theorem folds_allOf {nodes : List Node} (h : ∀ n ∈ nodes, n.isConst = true) :
    Folds (allOf nodes) fun n => n.isConst = true :=
  folds_accumulate (Junction.inputs_addUntilDecided_of_isConst rfl h)

end Build

/-- **Every call on constants** is a constant, and makes no gate. -/
theorem GateCall.folds (call : GateCall Node) (h : ∀ n ∈ call.operands, n.isConst = true) :
    Build.Folds call.build fun n => n.isConst = true := by
  cases call with
  | and a b => exact Build.folds_and (h a (by simp [operands])) (h b (by simp [operands]))
  | or a b => exact Build.folds_or (h a (by simp [operands])) (h b (by simp [operands]))
  | join op inputs => exact Build.folds_nary op h
  | not a => exact Build.folds_not (h a (by simp [operands]))
  | ite condition consequent alternative =>
    exact Build.folds_ite (h condition (by simp [operands])) (h consequent (by simp [operands]))
      (h alternative (by simp [operands]))
  | xor a b => exact Build.folds_xor (h a (by simp [operands])) (h b (by simp [operands]))
  | iff a b => exact Build.folds_iff (h a (by simp [operands])) (h b (by simp [operands]))
  | implies a b => exact Build.folds_implies (h a (by simp [operands])) (h b (by simp [operands]))
  | sum a b carryIn =>
    exact Build.folds_sum (h a (by simp [operands])) (h b (by simp [operands]))
      (h carryIn (by simp [operands]))
  | carry a b carryIn =>
    exact Build.folds_carry (h a (by simp [operands])) (h b (by simp [operands]))
      (h carryIn (by simp [operands]))
  | accumulate op inputs =>
    exact Build.folds_accumulate (Junction.inputs_foldl_add_of_isConst rfl h)

end IntCircuit
