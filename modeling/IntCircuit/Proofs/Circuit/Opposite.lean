import IntCircuit.Proofs.Circuit.Junctions
import IntCircuit.Proofs.Circuit.Sharing

/-!
# A node and its negation

The negation of a node is the other constant, the input of the negation that the node is, or a
negation made of the node. In each case the rules of folding see that the two are opposite, and make
no gate of them: what agrees with itself under every assignment is a constant. Where a negation is
negated again, this takes a circuit that shares gates, for only there is it the node itself.

## Main definitions

* `Node.Opposite`: a node and its negation

## Main results

* `Circuit.Sound.fold_opposite`: a connective of a node and its negation
* `Build.ensures_opposite`: negations are opposite
* `Build.ensures_iff_self`, `Build.ensures_xor_self`, `Build.ensures_implies_self`: a node and
  itself
* `Build.not_of_opposite`: the negation of a negation, if gates are shared
* `Build.ensures_sum_opposite`, `Build.ensures_carry_opposite`: a full adder of opposite nodes
-/

namespace IntCircuit

/-- One of the nodes is the negation of the other. -/
inductive Node.Opposite : Node → Node → Prop
  | const (value : Bool) : Opposite (.const value) (.const !value)
  | input (tag : Tag) (n : Node) : Opposite n (.not tag n)
  | not (tag : Tag) (n : Node) : Opposite (.not tag n) n

namespace Node

variable {a b : Node}

theorem Opposite.symm (h : a.Opposite b) : b.Opposite a := by
  cases h with
  | const value =>
    have hback := Opposite.const !value
    rwa [Bool.not_not] at hback
  | input tag => exact .not tag a
  | not tag => exact .input tag b

theorem Opposite.complementary (h : a.Opposite b) (hconst : a.isConst = false) :
    complementary [a, b] = true := by
  cases h with
  | const value => cases hconst
  | input tag n => simp [Node.complementary, notInput?]
  | not tag n => simp [Node.complementary, notInput?]

end Node

namespace Circuit.Sound

variable {c : Circuit} {a b n : Node} {tag : Tag}

/-- A negation negates no constant and no other negation. -/
theorem input_of_not (hc : c.Sound) (hn : c.Owns (.not tag n)) :
    n.isConst = false ∧ n.notInput? = none :=
  hc.normal_of_owns hn

/-- Opposite nodes are constants, or two nodes of the circuit none of which is one. -/
theorem cases_opposite (hc : c.Sound) (ha : c.Owns a) (hb : c.Owns b) (h : a.Opposite b) :
    (∃ value : Bool, a = .const value ∧ b = .const !value) ∨
      a.isConst = false ∧ b.isConst = false ∧ a ≠ b := by
  cases h with
  | const value => exact .inl ⟨value, rfl, rfl⟩
  | input tag n =>
    obtain ⟨hconst, hinput⟩ := hc.input_of_not hb
    refine .inr ⟨hconst, rfl, fun heq => ?_⟩
    rw [heq] at hinput
    cases hinput
  | not tag n =>
    obtain ⟨hconst, hinput⟩ := hc.input_of_not ha
    refine .inr ⟨rfl, hconst, fun heq => ?_⟩
    rw [← heq] at hinput
    cases hinput

/-- **A connective of a node and its negation** is settled, by their labels alone. -/
theorem fold_opposite (hc : c.Sound) (op : Connective) (ha : c.Owns a) (hb : c.Owns b)
    (h : a.Opposite b) : op.fold [a, b] = .node (.const op.absorbing) := by
  rcases hc.cases_opposite ha hb h with ⟨value, rfl, rfl⟩ | ⟨hca, hcb, hne⟩
  · cases op <;> cases value <;> rfl
  · have hfilter : [a, b].filter (fun n => !n.isConst) = [a, b] := by simp [hca, hcb]
    have hlabel : b.label ≠ a.label := fun heq => hne (hc.eq_of_label hb ha heq).symm
    have hdistinct : Node.distinct [a, b] = [a, b] := by simp [Node.distinct, hlabel]
    rw [Connective.fold]
    split
    · rfl
    · simp only [hfilter, hdistinct, h.complementary hca, if_true]

end Circuit.Sound

namespace Build

variable {c : Circuit} {a b : Node}

/-! ## Folded gates -/

theorem nary_opposite (hc : c.Sound) (op : Connective) (ha : c.Owns a) (hb : c.Owns b)
    (h : a.Opposite b) : nary op [a, b] = pure (.const op.absorbing) := by
  rw [nary, hc.fold_opposite op ha hb h]

/-- A choice of its own condition is a disjunction. -/
theorem ite_self_left (ha : a.isConst = false) (hb : b.isConst = false) (h : a.same b = false) :
    ite a a b = or a b := by
  rw [ite.eq_def]
  split
  · cases ha
  · rw [h, if_neg Bool.false_ne_true]
    split
    · cases ha
    · cases ha
    · cases hb
    · cases hb
    · rw [Node.same_self, if_pos rfl]

/-- A choice whose alternative is its own condition is a conjunction. -/
theorem ite_self_right (ha : a.isConst = false) (hb : b.isConst = false) (h : a.same b = false)
    (h' : b.same a = false) : ite a b a = and a b := by
  rw [ite.eq_def]
  split
  · cases ha
  · rw [h', if_neg Bool.false_ne_true]
    split
    · cases hb
    · cases hb
    · cases ha
    · cases ha
    · rw [h, if_neg Bool.false_ne_true, Node.same_self, if_pos rfl]

theorem same_eq_false (hc : c.Sound) (ha : c.Owns a) (hb : c.Owns b) (h : a ≠ b) :
    a.same b = false :=
  Bool.eq_false_iff.mpr fun hsame => h (hc.eq_of_same ha hb hsame)

theorem ite_opposite_left (hc : c.Sound) (ha : c.Owns a) (hb : c.Owns b) (h : a.Opposite b) :
    ite a a b = pure (.const true) := by
  rcases hc.cases_opposite ha hb h with ⟨value, rfl, rfl⟩ | ⟨hca, hcb, hne⟩
  · cases value <;> rfl
  · rw [ite_self_left hca hcb (same_eq_false hc ha hb hne)]
    exact nary_opposite hc .or ha hb h

theorem ite_opposite_right (hc : c.Sound) (ha : c.Owns a) (hb : c.Owns b) (h : a.Opposite b) :
    ite a b a = pure (.const false) := by
  rcases hc.cases_opposite ha hb h with ⟨value, rfl, rfl⟩ | ⟨hca, hcb, hne⟩
  · cases value <;> rfl
  · rw [ite_self_right hca hcb (same_eq_false hc ha hb hne) (same_eq_false hc hb ha hne.symm)]
    exact nary_opposite hc .and ha hb h

/-! ## A node and itself -/

/-- **A negation** is opposite to its node, whether it is made, found or undone. -/
theorem ensures_opposite (hc : c.Sound) (ha : c.Owns a) :
    Ensures c (not a) fun b d => d.Owns b ∧ a.Opposite b := by
  intro hl
  obtain ⟨hreach, hsound, hreads⟩ := ensures_not hc ha hl
  refine ⟨hreach, hsound, hreads.owns, ?_⟩
  cases hconst : a.isConst with
  | true =>
    obtain ⟨value, rfl⟩ := Node.eq_const_of_isConst hconst
    exact .const value
  | false =>
    cases hinput : a.notInput? with
    | some input =>
      obtain ⟨tag, rfl⟩ : ∃ tag, a = .not tag input := by
        cases a <;> cases hinput
        exact ⟨_, rfl⟩
      exact .not tag input
    | none =>
      -- what has the signature is a negation of the node with the label of `a`, and that is `a`
      have hgrown := Grows.grown (m := not a) c
      have hmakes : c.Makes (.not a.label) fun tag => .not tag a :=
        ⟨fun _ => rfl, fun _ => rfl, fun _ n hn => List.mem_singleton.mp hn ▸ ha,
          fun _ => ⟨hconst, hinput⟩⟩
      rw [not_eq_intern hconst hinput] at hl hsound hgrown ⊢
      obtain ⟨-, hmem, hsignature⟩ := hc.intern hmakes hl
      obtain ⟨tag, input, heq, hlabel⟩ := Node.eq_not_of_signature hsignature
      rw [run_intern, heq]
      rw [heq] at hmem
      have hinput := (hsound.made _ hmem input (List.mem_singleton_self input)).1
      rw [hsound.eq_of_label hinput (ha.mono hgrown) hlabel]
      exact .input tag a

theorem ensures_iff_self (hc : c.Sound) (ha : c.Owns a) :
    Ensures c (iff a a) fun n _ => n = .const true := by
  refine (ensures_opposite hc ha).bind fun b d hcd hd ⟨hb, h⟩ => ?_
  rw [ite_opposite_left hd (ha.mono hcd) hb h]
  exact .pure hd rfl

theorem ensures_xor_self (hc : c.Sound) (ha : c.Owns a) :
    Ensures c (xor a a) fun n _ => n = .const false := by
  refine (ensures_opposite hc ha).bind fun b d hcd hd ⟨hb, h⟩ => ?_
  rw [ite_opposite_right hd (ha.mono hcd) hb h]
  exact .pure hd rfl

theorem ensures_implies_self (hc : c.Sound) (ha : c.Owns a) :
    Ensures c (implies a a) fun n _ => n = .const true := by
  refine (ensures_opposite hc ha).bind fun b d hcd hd ⟨hb, h⟩ => ?_
  rw [or, nary_opposite hd .or hb (ha.mono hcd) h.symm]
  exact .pure hd rfl

/-! ## A node and its negation -/

/-- **The negation of a negation** is the node, if gates are shared. -/
theorem not_of_opposite (hs : c.sharing = true) (hc : c.Sound) (ha : c.Owns a) (h : a.Opposite b) :
    (not b).run c = (a, c) := by
  cases h with
  | const value =>
    show (Node.const !!value, c) = _
    rw [Bool.not_not]
  | input tag n => rfl
  | not tag n => exact run_not_of_owns hs hc ha

theorem ensures_xor_opposite (hs : c.sharing = true) (hc : c.Sound) (ha : c.Owns a)
    (hb : c.Owns b) (h : a.Opposite b) : Ensures c (xor a b) fun n _ => n = .const true := by
  have hrun : (xor a b).run c = (ite a a b).run c := by
    show (ite a ((not b).run c).1 b).run ((not b).run c).2 = _
    rw [not_of_opposite hs hc ha h]
  intro _
  rw [hrun, ite_opposite_left hc ha hb h]
  exact ⟨.refl, hc, rfl⟩

/-- **A full adder** of a node and its negation has no sum if a carry comes in. -/
theorem ensures_sum_opposite (hs : c.sharing = true) (hc : c.Sound) (ha : c.Owns a)
    (hb : c.Owns b) (h : a.Opposite b) :
    Ensures c (sum a b (.const true)) fun n _ => n = .const false := by
  refine (ensures_xor_opposite hs hc ha hb h).bind fun n d _ hd hn => ?_
  subst hn
  exact .pure hd rfl

/-- A carry that comes into it goes out again. -/
theorem ensures_carry_opposite (hs : c.sharing = true) (hc : c.Sound) (ha : c.Owns a)
    (hb : c.Owns b) (h : a.Opposite b) :
    Ensures c (carry a b (.const true)) fun n _ => n = .const true := by
  have hboth : and a b = pure (.const false) := nary_opposite hc .and ha hb h
  rw [carry, hboth, pure_bind]
  refine (ensures_xor_opposite hs hc ha hb h).bind fun n d _ hd hn => ?_
  subst hn
  exact .pure hd rfl

end Build

end IntCircuit
