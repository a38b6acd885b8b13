import IntCircuit.Proofs.Circuit.Ensures
import IntCircuit.Proofs.Circuit.Fold

/-!
# Gates compute their truth functions

Whichever rule folds a gate and whichever gate is shared in its place, the node that a call returns
has the truth function of its operands.

## Main results

* `Build.ensures_nary`, `Build.ensures_not`, `Build.ensures_ite`: the gates
* `Build.ensures_xor`, `Build.ensures_sum`, `Build.ensures_carry`: some of what is built from them
-/

namespace IntCircuit

namespace Node

theorem isConst_eq_false {n : Node} (h : ∀ value : Bool, n ≠ .const value) : n.isConst = false := by
  cases n with
  | const value => exact absurd rfl (h value)
  | _ => rfl

end Node

namespace Circuit

variable {c : Circuit}

theorem Reads.congr {n : Node} {f g : (Nat → Bool) → Bool} (hn : c.Reads n f)
    (h : ∀ σ, f σ = g σ) : c.Reads n g :=
  ⟨hn.owns, fun σ => (hn.eval σ).trans (h σ)⟩

theorem Owns.reads {n : Node} (hn : c.Owns n) : c.Reads n fun σ => n.eval σ :=
  ⟨hn, fun _ => rfl⟩

/-- Interning gives a node that computes what the gate would, whether it is new or shared. -/
theorem Sound.reads_intern (hc : c.Sound) {s : Signature} {make : Tag → Node}
    (hm : c.Makes s make) (hl : (c.intern s make).2.maxLabel + 1 < labelModulus) :
    (c.intern s make).2.Sound ∧
      (c.intern s make).2.Reads (c.intern s make).1 fun σ => (make c.nextTag).eval σ := by
  obtain ⟨hsound, hmem, hsignature⟩ := hc.intern hm hl
  obtain ⟨_, -, htag⟩ := hsound.exists_tag hmem
  have hgrown : c ≤ (c.intern s make).2 := grown_intern s make
  refine ⟨hsound, (owns_gate htag).mpr hmem, fun σ => ?_⟩
  -- a shared gate may have its inputs in another order, but it has the signature
  exact hsound.eval_eq_of_signature (fun n hn => (hsound.made _ hmem n hn).1)
    (fun n hn => (hm.inputs _ n hn).mono hgrown) hsignature (hm.signature _) σ

end Circuit

namespace Build

variable {c : Circuit}

instance (op : Connective) (inputs : List Node) : Grows (nary op inputs) := by
  rw [nary]
  split <;> infer_instance

instance (a b : Node) : Grows (and a b) := inferInstanceAs (Grows (nary _ _))

instance (a b : Node) : Grows (or a b) := inferInstanceAs (Grows (nary _ _))

instance (a : Node) : Grows (not a) := by
  rw [not.eq_def]
  split <;> infer_instance

instance (condition consequent alternative : Node) :
    Grows (ite condition consequent alternative) := by
  rw [ite.eq_def]
  split
  · infer_instance
  · split
    · infer_instance
    · split
      · infer_instance
      · infer_instance
      · infer_instance
      · infer_instance
      · split
        · infer_instance
        · split <;> infer_instance

instance (a b : Node) : Grows (xor a b) := by
  rw [xor]
  infer_instance

instance (a b : Node) : Grows (iff a b) := by
  rw [iff]
  infer_instance

instance (a b : Node) : Grows (implies a b) := by
  rw [implies]
  infer_instance

instance (a b carryIn : Node) : Grows (sum a b carryIn) := by
  rw [sum]
  infer_instance

instance (a b carryIn : Node) : Grows (carry a b carryIn) := by
  rw [carry]
  infer_instance

instance (j : Junction) : Grows (accumulate j) := by
  rw [accumulate]
  split <;> infer_instance

instance (call : GateCall Node) : Grows call.build := by
  cases call <;> rw [GateCall.build] <;> infer_instance

theorem Ensures.reads_congr {m : Build Node} [Grows m] {f g : (Nat → Bool) → Bool}
    (hm : Ensures c m fun n d => d.Reads n f) (h : ∀ σ, f σ = g σ) :
    Ensures c m fun n d => d.Reads n g :=
  hm.mono fun _ _ _ _ hn => hn.congr h

/-- What a computation ensures that makes nothing. -/
theorem ensures_pure {n : Node} {value : (Nat → Bool) → Bool} (hc : c.Sound) (hn : c.Owns n)
    (h : ∀ σ, n.eval σ = value σ) : Ensures c (pure n) fun n d => d.Reads n value :=
  .pure hc ⟨hn, h⟩

theorem ensures_nary (hc : c.Sound) (op : Connective) {inputs : List Node}
    (hown : ∀ n ∈ inputs, c.Owns n) :
    Ensures c (nary op inputs) fun n d =>
      d.Reads n fun σ => op.join (inputs.map (Node.eval σ)) := by
  intro hl
  refine ⟨Circuit.Reaches.single (.join op inputs) hown, ?_⟩
  have hfold := hc.fold_keeps op hown
  rw [nary] at hl ⊢
  cases h : op.fold inputs with
  | node n =>
    rw [h] at hfold
    exact ⟨hc, hfold.1, hfold.2⟩
  | gate rest =>
    rw [h] at hfold hl
    -- what folding has left is worth a gate
    have hmakes :
        c.Makes (.nary op (Label.sort (rest.map Node.label))) fun tag => .nary tag op rest :=
      ⟨fun _ => rfl, fun _ => rfl, fun _ n hn => hown n (hfold.1 hn), hfold.2.1⟩
    obtain ⟨hsound, hreads⟩ := hc.reads_intern hmakes hl
    exact ⟨hsound, hreads.congr fun σ => (Node.eval_nary ..).trans (hfold.2.2 σ)⟩

theorem ensures_and (hc : c.Sound) {a b : Node} (ha : c.Owns a) (hb : c.Owns b) :
    Ensures c (and a b) fun n d => d.Reads n fun σ => a.eval σ && b.eval σ :=
  (ensures_nary hc .and (by simp [ha, hb])).reads_congr fun σ => by simp [Connective.join]

theorem ensures_or (hc : c.Sound) {a b : Node} (ha : c.Owns a) (hb : c.Owns b) :
    Ensures c (or a b) fun n d => d.Reads n fun σ => a.eval σ || b.eval σ :=
  (ensures_nary hc .or (by simp [ha, hb])).reads_congr fun σ => by simp [Connective.join]

/-- A negation that no rule folds. -/
theorem not_eq_intern {a : Node} (hconst : a.isConst = false) (hinput : a.notInput? = none) :
    not a = intern (.not a.label) fun tag => .not tag a := by
  cases a with
  | const _ => cases hconst
  | not _ _ => simp [Node.notInput?] at hinput
  | _ => rfl

theorem ensures_not (hc : c.Sound) {a : Node} (ha : c.Owns a) :
    Ensures c (not a) fun n d => d.Reads n fun σ => !a.eval σ := by
  -- a constant and a negation are negated without a gate
  by_cases hfolded : (∃ value, a = .const value) ∨ ∃ tag inner, a = .not tag inner
  · rcases hfolded with ⟨value, rfl⟩ | ⟨tag, inner, rfl⟩
    · exact ensures_pure hc trivial fun σ => rfl
    · apply ensures_pure hc (hc.owns_of_mem_inputs ha (List.mem_singleton_self inner)).1
      intro σ
      rw [Node.eval_not, Bool.not_not]
  · have hopen : a.isConst = false ∧ a.notInput? = none := by
      cases a <;> first | exact ⟨rfl, rfl⟩ | simp at hfolded
    have hmakes : c.Makes (.not a.label) fun tag => .not tag a :=
      ⟨fun _ => rfl, fun _ => rfl, fun _ n hn => List.mem_singleton.mp hn ▸ ha, fun _ => hopen⟩
    intro hl
    refine ⟨Circuit.Reaches.single (.not a) (by simpa [GateCall.operands] using ha), ?_⟩
    rw [not_eq_intern hopen.1 hopen.2] at hl ⊢
    obtain ⟨hsound, hreads⟩ := hc.reads_intern hmakes hl
    exact ⟨hsound, hreads.congr fun σ => Node.eval_not ..⟩

/-- A choice that no rule folds. -/
theorem ensures_choice (hc : c.Sound) {condition consequent alternative : Node}
    (hcond : c.Owns condition) (hcons : c.Owns consequent) (halt : c.Owns alternative)
    (hnormal : ∀ tag : Tag, (Node.ite tag condition consequent alternative).Normal)
    (hcall : ite condition consequent alternative =
      intern (.ite condition.label consequent.label alternative.label) fun tag =>
        .ite tag condition consequent alternative) :
    Ensures c (ite condition consequent alternative) fun n d => d.Reads n fun σ =>
      if condition.eval σ then consequent.eval σ else alternative.eval σ := by
  intro hl
  have hown : ∀ n ∈ [condition, consequent, alternative], c.Owns n := by
    simp [hcond, hcons, halt]
  have hmakes : c.Makes (.ite condition.label consequent.label alternative.label) fun tag =>
      .ite tag condition consequent alternative :=
    ⟨fun _ => rfl, fun _ => rfl, fun _ => hown, hnormal⟩
  refine ⟨Circuit.Reaches.single (.ite condition consequent alternative) hown, ?_⟩
  rw [hcall] at hl ⊢
  obtain ⟨hsound, hreads⟩ := hc.reads_intern hmakes hl
  exact ⟨hsound, hreads.congr fun σ => Node.eval_ite ..⟩

/-- **A choice** is the consequent or the alternative, by whichever rule it is folded. -/
theorem ensures_ite (hc : c.Sound) {condition consequent alternative : Node}
    (hcond : c.Owns condition) (hcons : c.Owns consequent) (halt : c.Owns alternative) :
    Ensures c (ite condition consequent alternative) fun n d => d.Reads n fun σ =>
      if condition.eval σ then consequent.eval σ else alternative.eval σ := by
  -- the rules in the order in which they are tried
  have hdef := ite.eq_def condition consequent alternative
  split at hdef
  next value =>
    -- the condition is a constant
    rw [hdef]
    cases value
    · exact ensures_pure hc halt fun σ => by simp
    · exact ensures_pure hc hcons fun σ => by simp
  next hvar =>
    split at hdef
    next hsame =>
      -- both alternatives are one node
      obtain rfl := hc.eq_of_same hcons halt hsame
      rw [hdef]
      exact ensures_pure hc hcons fun σ => by simp
    next hdiffer =>
      -- one of the alternatives is a constant
      split at hdef
      · rw [hdef]
        apply (ensures_or hc hcond halt).reads_congr
        intro σ
        rw [Node.eval_const]
        cases condition.eval σ <;> rfl
      · rw [hdef]
        refine (ensures_not hc hcond).bind fun r d hcd hd hr => ?_
        apply (ensures_and hd hr.owns (halt.mono hcd)).reads_congr
        intro σ
        rw [hr.eval, Node.eval_const]
        cases condition.eval σ <;> rfl
      · rw [hdef]
        refine (ensures_not hc hcond).bind fun r d hcd hd hr => ?_
        apply (ensures_or hd hr.owns (hcons.mono hcd)).reads_congr
        intro σ
        rw [hr.eval, Node.eval_const]
        cases condition.eval σ <;> simp
      · rw [hdef]
        apply (ensures_and hc hcond hcons).reads_congr
        intro σ
        rw [Node.eval_const]
        cases condition.eval σ <;> rfl
      next hcons₁ hcons₀ halt₁ halt₀ =>
        split at hdef
        next hsame =>
          -- the condition is itself one of the alternatives
          obtain rfl := hc.eq_of_same hcond hcons hsame
          rw [hdef]
          apply (ensures_or hc hcond halt).reads_congr
          intro σ
          cases condition.eval σ <;> rfl
        next hleft =>
          split at hdef
          next hsame =>
            obtain rfl := hc.eq_of_same hcond halt hsame
            rw [hdef]
            apply (ensures_and hc hcond hcons).reads_congr
            intro σ
            cases condition.eval σ <;> rfl
          next hright =>
            -- no rule is left: the gate is in normal form
            refine ensures_choice hc hcond hcons halt (fun _ => ⟨⟨?_, ?_, ?_⟩, ?_, ?_, ?_⟩) hdef
            · exact Node.isConst_eq_false hvar
            · exact Node.isConst_eq_false fun value => by
                cases value
                · exact hcons₀
                · exact hcons₁
            · exact Node.isConst_eq_false fun value => by
                cases value
                · exact halt₀
                · exact halt₁
            · exact Bool.eq_false_iff.mpr hleft
            · exact Bool.eq_false_iff.mpr hright
            · exact Bool.eq_false_iff.mpr hdiffer

theorem ensures_xor (hc : c.Sound) {a b : Node} (ha : c.Owns a) (hb : c.Owns b) :
    Ensures c (xor a b) fun n d => d.Reads n fun σ => a.eval σ ^^ b.eval σ := by
  refine (ensures_not hc hb).bind fun r d hcd hd hr => ?_
  apply (ensures_ite hd (ha.mono hcd) hr.owns (hb.mono hcd)).reads_congr
  intro σ
  rw [hr.eval]
  cases a.eval σ <;> simp

theorem ensures_iff (hc : c.Sound) {a b : Node} (ha : c.Owns a) (hb : c.Owns b) :
    Ensures c (iff a b) fun n d => d.Reads n fun σ => a.eval σ == b.eval σ := by
  refine (ensures_not hc hb).bind fun r d hcd hd hr => ?_
  apply (ensures_ite hd (ha.mono hcd) (hb.mono hcd) hr.owns).reads_congr
  intro σ
  rw [hr.eval]
  cases a.eval σ <;> simp

theorem ensures_implies (hc : c.Sound) {a b : Node} (ha : c.Owns a) (hb : c.Owns b) :
    Ensures c (implies a b) fun n d => d.Reads n fun σ => !a.eval σ || b.eval σ := by
  refine (ensures_not hc ha).bind fun r d hcd hd hr => ?_
  apply (ensures_or hd hr.owns (hb.mono hcd)).reads_congr
  intro σ
  rw [hr.eval]

theorem ensures_sum (hc : c.Sound) {a b carryIn : Node} (ha : c.Owns a) (hb : c.Owns b)
    (hcarry : c.Owns carryIn) :
    Ensures c (sum a b carryIn) fun n d => d.Reads n fun σ =>
      a.eval σ ^^ b.eval σ ^^ carryIn.eval σ := by
  refine (ensures_xor hc ha hb).bind fun r d hcd hd hr => ?_
  apply (ensures_xor hd (hcarry.mono hcd) hr.owns).reads_congr
  intro σ
  rw [hr.eval, Bool.xor_comm]

theorem ensures_carry (hc : c.Sound) {a b carryIn : Node} (ha : c.Owns a) (hb : c.Owns b)
    (hcarry : c.Owns carryIn) :
    Ensures c (carry a b carryIn) fun n d => d.Reads n fun σ =>
      (a.eval σ && b.eval σ) || (carryIn.eval σ && (a.eval σ ^^ b.eval σ)) := by
  refine (ensures_and hc ha hb).bind fun both d hcd hd hboth => ?_
  refine (ensures_xor hd (ha.mono hcd) (hb.mono hcd)).bind fun differ e hde he hdiffer => ?_
  refine (ensures_and he (hcarry.mono (hcd.trans hde)) hdiffer.owns).bind
    fun passed f hef hf hpassed => ?_
  apply (ensures_or hf (hboth.owns.mono (hde.trans hef)) hpassed.owns).reads_congr
  intro σ
  rw [hboth.eval, hpassed.eval, hdiffer.eval]

end Build

end IntCircuit
