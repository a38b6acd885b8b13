import IntCircuit.Circuit.Gate
import IntCircuit.Node.Eval
import Mathlib.Order.Basic
import Mathlib.Tactic.Common
import Std.Data.TreeMap.Lemmas

/-!
# Valid circuits

A circuit grows by gates only, and until the count of labels comes round to those of the constants,
its gates are in normal form, each under a label of its own. Then a label stands for one node, and
two gates with one signature compute the same, so that a gate may be shared by all that have its
signature. As long as labels are positive they also tell which of two nodes is the older one.

## Main definitions

* `Circuit.Owns`: the nodes that a circuit has handed out
* `Circuit.Grown`: the later states of a circuit, as the order `c ≤ d`
* `Node.Normal`, `Node.signature?`: the normal form of a gate, and what it is shared by
* `Circuit.Counted`: gates whose labels are their places in the count, read as 32 bits
* `Circuit.Sound`: the invariant of circuits in which no label has been given twice
* `Circuit.Valid`: the invariant of circuits with positive labels left

## Main results

* `Circuit.Sound.eq_of_label`, `Circuit.Sound.eq_of_same`: labels and identities tell nodes apart
* `Circuit.Sound.eval_eq_of_signature`: gates with one signature compute the same
* `Circuit.Sound.intern`: soundness survives a new gate in normal form
-/

namespace IntCircuit

namespace Label

theorem insert_perm (label : Int) (labels : List Int) :
    (insert label labels).Perm (label :: labels) := by
  induction labels with
  | nil => exact .refl _
  | cons first rest ih =>
    rw [insert]
    split
    · exact .refl _
    · exact (ih.cons first).trans (.swap label first rest)

theorem sort_perm (labels : List Int) : (sort labels).Perm labels := by
  induction labels with
  | nil => exact .refl _
  | cons label rest ih => exact (insert_perm label (sort rest)).trans (ih.cons label)

end Label

namespace Connective

/-- A connective looks only for the absorbing constant among its inputs. -/
theorem join_eq_ite (op : Connective) (values : List Bool) :
    op.join values = if op.absorbing ∈ values then op.absorbing else op.identity := by
  induction values with
  | nil => rw [join_nil, if_neg List.not_mem_nil]
  | cons v rest ih =>
    rw [join_cons, ih]
    -- the first value settles the rest only if it is the absorbing one
    by_cases hv : v = op.absorbing
    · simp [hv]
    · simp [hv, Ne.symm hv]

theorem join_congr {op : Connective} {values others : List Bool}
    (h : op.absorbing ∈ values ↔ op.absorbing ∈ others) : op.join values = op.join others := by
  simp only [join_eq_ite, h]

theorem join_eq_absorbing {op : Connective} {values : List Bool} (h : op.absorbing ∈ values) :
    op.join values = op.absorbing := by
  rw [join_eq_ite, if_pos h]

end Connective

namespace Node

/-- What makes a gate worth its label: no input is a constant, a connective has at least two
inputs, none of them twice or beside its negation, a negation negates no negation, and the parts of
a choice are three different nodes. -/
def Normal : Node → Prop
  | const _ => True
  | var _ => True
  | nary _ _ inputs =>
    2 ≤ inputs.length ∧ (∀ n ∈ inputs, n.isConst = false) ∧ (inputs.map label).Nodup ∧
      complementary inputs = false
  | not _ input => input.isConst = false ∧ input.notInput? = none
  | ite _ condition consequent alternative =>
    (condition.isConst = false ∧ consequent.isConst = false ∧ alternative.isConst = false) ∧
      condition.same consequent = false ∧ condition.same alternative = false ∧
      consequent.same alternative = false

/-- What a gate is shared by. -/
def signature? : Node → Option Signature
  | const _ => none
  | var _ => none
  | nary _ op inputs => some (.nary op (Label.sort (inputs.map label)))
  | not _ input => some (.not input.label)
  | ite _ condition consequent alternative =>
    some (.ite condition.label consequent.label alternative.label)

@[simp] theorem label_var (v : Nat) : (var v).label = v := rfl

theorem label_const_le (value : Bool) : (const value).label ≤ 0 := by
  cases value <;> decide

theorem le_label_const (value : Bool) : -1 ≤ (const value).label := by
  cases value <;> decide

theorem eq_const_of_isConst {n : Node} (h : n.isConst = true) : ∃ value, n = .const value := by
  cases n <;> first | exact ⟨_, rfl⟩ | cases h

theorem label_of_tag? {n : Node} {tag : Tag} (h : n.tag? = some tag) : n.label = tag.label := by
  cases n <;> simp_all [tag?, label]

theorem Normal.isConst_of_mem_inputs {n m : Node} (h : n.Normal) (hm : m ∈ n.inputs) :
    m.isConst = false := by
  cases n with
  | const _ => cases hm
  | var _ => cases hm
  | nary _ _ inputs => exact h.2.1 m hm
  | not _ input => rw [List.mem_singleton.mp hm]; exact h.1
  | ite _ condition consequent alternative =>
    rcases List.mem_cons.mp hm with rfl | hm
    · exact h.1.1
    · rcases List.mem_cons.mp hm with rfl | hm
      · exact h.1.2.1
      · rw [List.mem_singleton.mp hm]; exact h.1.2.2

end Node

namespace Circuit

/-- The nodes that a circuit has handed out: constants, its variables and its gates. -/
def Owns (c : Circuit) : Node → Prop
  | .const _ => True
  | .var label => 0 < label ∧ label ≤ c.numVariables
  | .nary tag op inputs => .nary tag op inputs ∈ c.gates
  | .not tag input => .not tag input ∈ c.gates
  | .ite tag condition consequent alternative =>
    .ite tag condition consequent alternative ∈ c.gates

@[simp] theorem owns_const (c : Circuit) (value : Bool) : c.Owns (.const value) := trivial

theorem owns_gate {c : Circuit} {n : Node} {tag : Tag} (h : n.tag? = some tag) :
    c.Owns n ↔ n ∈ c.gates := by
  cases n <;> first | exact Iff.rfl | cases h

/-- The state `d` comes after the state `c`: gates have been added, and nothing else changed. -/
structure Grown (c d : Circuit) : Prop where
  id : d.id = c.id
  numVariables : d.numVariables = c.numVariables
  bitwidth : d.bitwidth = c.bitwidth
  sharing : d.sharing = c.sharing
  gates : c.gates.toList <+: d.gates.toList
  shared : ∀ (s : Signature) (g : Node), c.shared[s]? = some g → d.shared[s]? = some g

instance : Preorder Circuit where
  le := Grown
  le_refl _ := ⟨rfl, rfl, rfl, rfl, List.prefix_rfl, fun _ _ h => h⟩
  le_trans _ _ _ h k :=
    ⟨k.id.trans h.id, k.numVariables.trans h.numVariables, k.bitwidth.trans h.bitwidth,
      k.sharing.trans h.sharing, h.gates.trans k.gates,
      fun s g hg => k.shared s g (h.shared s g hg)⟩

variable {c d : Circuit}

theorem numGates_mono (h : c ≤ d) : c.numGates ≤ d.numGates := by
  simpa [numGates] using h.gates.length_le

theorem maxLabel_mono (h : c ≤ d) : c.maxLabel ≤ d.maxLabel := by
  rw [maxLabel, maxLabel, h.numVariables]
  exact Nat.add_le_add_left (numGates_mono h) _

/-- Labels that last to a later state have lasted before. -/
theorem maxLabel_lt_mono (h : c ≤ d) (hl : d.maxLabel + 1 < labelModulus) :
    c.maxLabel + 1 < labelModulus :=
  Nat.lt_of_le_of_lt (Nat.add_le_add_right (maxLabel_mono h) 1) hl

theorem mem_gates_mono (h : c ≤ d) {n : Node} (hn : n ∈ c.gates) : n ∈ d.gates :=
  Array.mem_toList_iff.mp (h.gates.subset (Array.mem_toList_iff.mpr hn))

theorem Owns.mono (h : c ≤ d) {n : Node} (hn : c.Owns n) : d.Owns n := by
  cases n with
  | const _ => trivial
  | var label => exact ⟨hn.1, h.numVariables ▸ hn.2⟩
  | nary _ _ _ => exact mem_gates_mono h hn
  | not _ _ => exact mem_gates_mono h hn
  | ite _ _ _ _ => exact mem_gates_mono h hn

/-- A node of a circuit is a constant, one of its variables or one of its gates. -/
theorem Owns.cases {n : Node} (hn : c.Owns n) :
    (∃ value, n = .const value) ∨
      (∃ v : Nat, n = .var v ∧ 0 < v ∧ v ≤ c.numVariables) ∨
      (n ∈ c.gates ∧ ∃ tag, n.tag? = some tag) := by
  cases n with
  | const value => exact .inl ⟨value, rfl⟩
  | var v => exact .inr (.inl ⟨v, rfl, hn⟩)
  | nary tag _ _ => exact .inr (.inr ⟨hn, tag, rfl⟩)
  | not tag _ => exact .inr (.inr ⟨hn, tag, rfl⟩)
  | ite tag _ _ _ => exact .inr (.inr ⟨hn, tag, rfl⟩)

/-- The gates have the labels that follow those of the variables, in the order in which they were
made, where the count goes on with the negative numbers of 32 bits after the positive ones. -/
def Counted (c : Circuit) : Prop :=
  ∀ (i : Nat) (h : i < c.gates.size),
    c.gates[i].tag? = some ⟨c.id, Label.ofCount (c.numVariables + 1 + i)⟩

/-- The invariant of a circuit in which no label has been given twice: gates are labelled one after
another, their inputs are nodes of the circuit, with smaller labels if theirs are positive, they are
in normal form, and what is shared is a gate with that signature, every gate if the circuit
shares. -/
structure Sound (c : Circuit) : Prop where
  maxLabel_lt : c.maxLabel + 1 < labelModulus
  counted : c.Counted
  made : ∀ g ∈ c.gates, ∀ n ∈ g.inputs, c.Owns n ∧ (0 < g.label → n.label < g.label)
  normal : ∀ g ∈ c.gates, g.Normal
  found : ∀ (s : Signature) (g : Node), c.shared[s]? = some g → g ∈ c.gates ∧ g.signature? = some s
  kept : c.sharing = true → ∀ g ∈ c.gates, ∀ s : Signature, g.signature? = some s →
    c.shared[s]? = some g

/-- The invariant of a circuit whose positive labels have not run out. -/
structure Valid (c : Circuit) : Prop extends Sound c where
  maxLabel_le : c.maxLabel ≤ labelLimit

instance : Coe c.Valid c.Sound := ⟨Valid.toSound⟩

namespace Sound

theorem exists_tag (hc : c.Sound) {g : Node} (hg : g ∈ c.gates) :
    ∃ i : Nat, c.gates[i]? = some g ∧
      g.tag? = some ⟨c.id, Label.ofCount (c.numVariables + 1 + i)⟩ := by
  obtain ⟨i, hi, rfl⟩ := Array.mem_iff_getElem.mp hg
  exact ⟨i, Array.getElem?_eq_getElem hi, hc.counted i hi⟩

/-- The label of a gate is its place in the count. -/
theorem exists_count (hc : c.Sound) {g : Node} (hg : g ∈ c.gates) :
    ∃ i : Nat, c.gates[i]? = some g ∧ c.numVariables + 1 + i ≤ c.maxLabel ∧
      g.label = Label.ofCount (c.numVariables + 1 + i) := by
  obtain ⟨i, hi, htag⟩ := hc.exists_tag hg
  have hlt : i < c.gates.size := (Array.getElem?_eq_some_iff.mp hi).1
  have hle : c.numVariables + 1 + i ≤ c.maxLabel := by
    rw [maxLabel, numGates]
    omega
  exact ⟨i, hi, hle, by rw [Node.label_of_tag? htag]⟩

/-- Gates have positive labels after those of the variables, or negative ones. -/
theorem label_gate (hc : c.Sound) {g : Node} (hg : g ∈ c.gates) :
    (c.numVariables : Int) < g.label ∧ g.label ≤ c.maxLabel ∨ g.label < -1 := by
  obtain ⟨i, -, hle, hlabel⟩ := hc.exists_count hg
  have hlt := hc.maxLabel_lt
  have hcount := Label.ofCount_of_lt (n := c.numVariables + 1 + i) (by omega) (by omega)
  omega

/-- Gates are told apart by their labels. -/
theorem gate_eq_of_label (hc : c.Sound) {g k : Node} (hg : g ∈ c.gates) (hk : k ∈ c.gates)
    (h : g.label = k.label) : g = k := by
  obtain ⟨i, hi, hile, hil⟩ := hc.exists_count hg
  obtain ⟨j, hj, hjle, hjl⟩ := hc.exists_count hk
  have hlt := hc.maxLabel_lt
  rw [hil, hjl] at h
  -- a label tells the position of its gate
  have hcount := Label.ofCount_inj (by omega) (by omega) h
  obtain rfl : i = j := Nat.add_left_cancel hcount
  exact Option.some.inj (hi.symm.trans hj)

theorem label_le (hc : c.Sound) {n : Node} (hn : c.Owns n) : n.label ≤ c.maxLabel := by
  rcases hn.cases with ⟨value, rfl⟩ | ⟨v, rfl, -, hv⟩ | ⟨hg, -⟩
  · have := Node.label_const_le value
    omega
  · rw [Node.label_var, maxLabel]
    omega
  · have := hc.label_gate hg
    omega

/-- A node with the label of a constant is that constant. -/
theorem eq_const_of_label (hc : c.Sound) {n : Node} (hn : c.Owns n) {value : Bool}
    (h : n.label = (Node.const value).label) : n = .const value := by
  have hle := Node.label_const_le value
  have hge := Node.le_label_const value
  rcases hn.cases with ⟨other, rfl⟩ | ⟨v, rfl, hv, -⟩ | ⟨hg, -⟩
  · cases value <;> cases other <;> first | rfl | cases h
  · rw [Node.label_var] at h
    omega
  · have := hc.label_gate hg
    omega

/-- **Labels tell the nodes of a circuit apart.** -/
theorem eq_of_label (hc : c.Sound) {n m : Node} (hn : c.Owns n) (hm : c.Owns m)
    (h : n.label = m.label) : n = m := by
  -- constants have the labels 0 and -1, variables those up to their number, and gates the others
  rcases hn.cases with ⟨a, rfl⟩ | ⟨v, rfl, -, hv⟩ | ⟨hg, -⟩
  · exact (hc.eq_const_of_label hm h.symm).symm
  · rcases hm.cases with ⟨b, rfl⟩ | ⟨w, rfl, -, -⟩ | ⟨hk, -⟩
    · exact hc.eq_const_of_label hn h
    · rw [Node.label_var, Node.label_var, Int.natCast_inj] at h
      rw [h]
    · have := hc.label_gate hk
      rw [Node.label_var] at h
      omega
  · rcases hm.cases with ⟨b, rfl⟩ | ⟨w, rfl, -, hw⟩ | ⟨hk, -⟩
    · exact hc.eq_const_of_label hn h
    · have := hc.label_gate hg
      rw [Node.label_var] at h
      omega
    · exact hc.gate_eq_of_label hg hk h

/-- **Nodes of a circuit that are one are equal.** -/
theorem eq_of_same (hc : c.Sound) {n m : Node} (hn : c.Owns n) (hm : c.Owns m)
    (h : n.same m = true) : n = m := by
  refine hc.eq_of_label hn hm ?_
  have hi := Node.same_iff.mp h
  cases n <;> cases m <;> simp_all [Node.identity, Node.label]

theorem owns_of_mem_inputs (hc : c.Sound) {n m : Node} (hn : c.Owns n) (hm : m ∈ n.inputs) :
    c.Owns m ∧ (0 < n.label → m.label < n.label) := by
  rcases hn.cases with ⟨value, rfl⟩ | ⟨v, rfl, -⟩ | ⟨hg, -⟩
  · cases hm
  · cases hm
  · exact hc.made n hg m hm

theorem normal_of_owns (hc : c.Sound) {n : Node} (hn : c.Owns n) : n.Normal := by
  rcases hn.cases with ⟨value, rfl⟩ | ⟨v, rfl, -⟩ | ⟨hg, -⟩
  · trivial
  · trivial
  · exact hc.normal n hg

/-- A list of nodes with all labels of another list has all its nodes. -/
theorem mem_of_labels_subset (hc : c.Sound) {nodes others : List Node}
    (hn : ∀ n ∈ nodes, c.Owns n) (ho : ∀ n ∈ others, c.Owns n)
    (h : nodes.map Node.label ⊆ others.map Node.label) {n : Node} (hmem : n ∈ nodes) :
    n ∈ others := by
  obtain ⟨m, hm, heq⟩ := List.mem_map.mp (h (List.mem_map_of_mem hmem))
  rwa [← hc.eq_of_label (ho m hm) (hn n hmem) heq]

/-- **Gates with one signature compute the same**, whether or not they are made yet. -/
theorem eval_eq_of_signature (hc : c.Sound) {g k : Node} (hg : ∀ n ∈ g.inputs, c.Owns n)
    (hk : ∀ n ∈ k.inputs, c.Owns n) {s : Signature} (hgs : g.signature? = some s)
    (hks : k.signature? = some s) (σ : Nat → Bool) : g.eval σ = k.eval σ := by
  cases g <;> cases hgs <;> cases k <;> simp only [Node.signature?, Option.some.injEq,
    Signature.nary.injEq, Signature.not.injEq, Signature.ite.injEq, reduceCtorEq] at hks
  case nary.refl.nary _ _ inputs _ _ others =>
    -- one may have the inputs of the other in another order
    obtain ⟨rfl, hsort⟩ := hks
    have hperm : (others.map Node.label).Perm (inputs.map Node.label) :=
      (Label.sort_perm _).symm.trans (hsort ▸ Label.sort_perm _)
    have hsame (n : Node) : n ∈ inputs ↔ n ∈ others :=
      ⟨hc.mem_of_labels_subset hg hk hperm.symm.subset, hc.mem_of_labels_subset hk hg hperm.subset⟩
    rw [Node.eval_nary, Node.eval_nary]
    exact Connective.join_congr (by simp only [List.mem_map, hsame])
  case not.refl.not _ input _ other =>
    obtain rfl : other = input :=
      hc.eq_of_label (hk _ (List.mem_singleton_self _)) (hg _ (List.mem_singleton_self _)) hks
    rw [Node.eval_not, Node.eval_not]
  case ite.refl.ite _ c₁ t₁ e₁ _ c₂ t₂ e₂ =>
    have hpart {n m : Node} (hn : n ∈ [c₂, t₂, e₂]) (hm : m ∈ [c₁, t₁, e₁])
        (h : n.label = m.label) : n = m :=
      hc.eq_of_label (hk n hn) (hg m hm) h
    obtain rfl : c₂ = c₁ := hpart (by simp) (by simp) hks.1
    obtain rfl : t₂ = t₁ := hpart (by simp) (by simp) hks.2.1
    obtain rfl : e₂ = e₁ := hpart (by simp) (by simp) hks.2.2
    rw [Node.eval_ite, Node.eval_ite]

end Sound

/-- What a circuit can make under its next label: a gate with this signature, over nodes of the
circuit and in normal form. -/
structure Makes (c : Circuit) (s : Signature) (make : Tag → Node) : Prop where
  tag : ∀ t : Tag, (make t).tag? = some t
  signature : ∀ t : Tag, (make t).signature? = some s
  inputs : ∀ t : Tag, ∀ n ∈ (make t).inputs, c.Owns n
  normal : ∀ t : Tag, (make t).Normal

theorem find?_eq_some {s : Signature} {g : Node} (h : c.find? s = some g) :
    c.shared[s]? = some g := by
  rw [find?] at h
  split at h
  · exact h
  · cases h

theorem find?_eq_none (hs : c.sharing = true) {s : Signature} :
    c.find? s = none ↔ c.shared[s]? = none := by
  rw [find?, if_pos hs]

theorem shared_push (s t : Signature) (gate : Node) :
    (c.push s gate).shared[t]? =
      if c.sharing = true ∧ s = t then some gate else c.shared[t]? := by
  by_cases hs : c.sharing = true
  · simp [push, hs, Std.TreeMap.getElem?_insert]
  · simp [push, hs]

theorem grown_push {s : Signature} (h : c.find? s = none) (gate : Node) : c ≤ c.push s gate where
  id := rfl
  numVariables := rfl
  bitwidth := rfl
  sharing := rfl
  gates := by simp [push]
  shared t g ht := by
    rw [shared_push, if_neg]
    · exact ht
    · -- nothing has been kept for the signature that is about to get a gate
      rintro ⟨hs, rfl⟩
      rw [(find?_eq_none hs).mp h] at ht
      cases ht

theorem grown_intern (s : Signature) (make : Tag → Node) : c ≤ (c.intern s make).2 := by
  rw [intern]
  split
  · exact le_refl c
  · next h => exact grown_push h _

/-- A new gate under the next label is counted. -/
theorem Counted.push (hc : c.Counted) (s : Signature) {gate : Node}
    (htag : gate.tag? = some c.nextTag) : (c.push s gate).Counted := by
  intro i hi
  simp only [Circuit.push, Array.size_push] at hi
  simp only [Circuit.push, Array.getElem_push]
  split
  · exact hc i _
  · -- the last gate has the label that was next
    obtain rfl : i = c.gates.size := by omega
    rw [htag, nextTag, nextLabel, maxLabel, numGates, Nat.add_right_comm]

/-- **Soundness survives a new gate in normal form.** -/
theorem Sound.push (hc : c.Sound) {s : Signature} {make : Tag → Node} (hm : c.Makes s make)
    (hfind : c.find? s = none) (hl : (c.push s (make c.nextTag)).maxLabel + 1 < labelModulus) :
    (c.push s (make c.nextTag)).Sound := by
  have hgrown : c ≤ c.push s (make c.nextTag) := grown_push hfind _
  have htag := hm.tag c.nextTag
  -- there is a label left, so the next one has not been given before
  have hnext : 0 < c.nextLabel ∧ c.nextLabel = (c.maxLabel + 1 : Nat) ∨ c.nextLabel < -1 := by
    rw [maxLabel, numGates_push] at hl
    rw [nextLabel, maxLabel]
    exact Label.ofCount_of_lt (Nat.succ_pos _) hl
  have hmem {g : Node} (h : g ∈ (c.push s (make c.nextTag)).gates) :
      g ∈ c.gates ∨ g = make c.nextTag := Array.mem_push.mp h
  refine ⟨hl, hc.counted.push s htag, ?_, ?_, ?_, ?_⟩
  · -- inputs come before the gate
    intro g hg n hn
    rcases hmem hg with hg | rfl
    · exact ⟨(hc.made g hg n hn).1.mono hgrown, (hc.made g hg n hn).2⟩
    · have hown := hm.inputs _ n hn
      have hle := hc.label_le hown
      have hlabel : (make c.nextTag).label = c.nextLabel := by
        rw [Node.label_of_tag? htag, nextTag]
      refine ⟨hown.mono hgrown, fun hpos => ?_⟩
      rw [hlabel] at hpos ⊢
      omega
  · intro g hg
    rcases hmem hg with hg | rfl
    · exact hc.normal g hg
    · exact hm.normal _
  · -- what is found under a signature has that signature
    intro t g ht
    rw [shared_push] at ht
    split at ht
    · next h =>
      cases ht
      exact ⟨Array.mem_push_self, h.2 ▸ hm.signature _⟩
    · exact ⟨Array.mem_push_of_mem _ (hc.found t g ht).1, (hc.found t g ht).2⟩
  · -- what has a signature is found under it
    intro hs g hg t ht
    rw [shared_push]
    rcases hmem hg with hg | rfl
    · have hkept := hc.kept hs g hg t ht
      rw [if_neg]
      · exact hkept
      · rintro ⟨-, rfl⟩
        rw [(find?_eq_none (c := c) hs).mp hfind] at hkept
        cases hkept
    · rw [if_pos ⟨hs, Option.some.inj ((hm.signature _).symm.trans ht)⟩]

/-- What interning a gate in normal form gives: a node with its signature, of a sound circuit. -/
theorem Sound.intern (hc : c.Sound) {s : Signature} {make : Tag → Node} (hm : c.Makes s make)
    (hl : (c.intern s make).2.maxLabel + 1 < labelModulus) :
    (c.intern s make).2.Sound ∧ (c.intern s make).1 ∈ (c.intern s make).2.gates ∧
      (c.intern s make).1.signature? = some s := by
  rw [Circuit.intern] at hl ⊢
  split at hl
  · next g h =>
    exact ⟨hc, hc.found s g (find?_eq_some h)⟩
  · next h =>
    exact ⟨hc.push hm h hl, Array.mem_push_self, hm.signature _⟩

/-! ## Positive labels -/

namespace Valid

theorem tag (hc : c.Valid) (i : Nat) (h : i < c.gates.size) :
    c.gates[i].tag? = some ⟨c.id, (c.numVariables + 1 + i : Nat)⟩ := by
  have hle := hc.maxLabel_le
  rw [maxLabel, numGates] at hle
  rw [hc.counted i h, Label.ofCount_of_le (by omega)]

theorem tag_of_mem (hc : c.Valid) {g : Node} (hg : g ∈ c.gates) :
    ∃ i : Nat, c.gates[i]? = some g ∧
      g.tag? = some ⟨c.id, (c.numVariables + 1 + i : Nat)⟩ := by
  obtain ⟨i, hi, rfl⟩ := Array.mem_iff_getElem.mp hg
  exact ⟨i, Array.getElem?_eq_getElem hi, hc.tag i hi⟩

theorem label_of_mem (hc : c.Valid) {g : Node} (hg : g ∈ c.gates) :
    (c.numVariables : Int) < g.label ∧ g.label ≤ c.maxLabel := by
  obtain ⟨i, -, ht⟩ := hc.tag_of_mem hg
  have hlabel : g.label = (c.numVariables + 1 + i : Nat) := Node.label_of_tag? ht
  have hgate := hc.label_gate hg
  omega

theorem label_pos (hc : c.Valid) {n : Node} (hn : c.Owns n) (h : n.isConst = false) :
    0 < n.label := by
  rcases hn.cases with ⟨value, rfl⟩ | ⟨v, rfl, hv, -⟩ | ⟨hg, -⟩
  · cases h
  · exact Int.natCast_pos.mpr hv
  · have := (hc.label_of_mem hg).1
    omega

/-- The inputs of a gate are older than the gate. -/
theorem inputs (hc : c.Valid) (g : Node) (hg : g ∈ c.gates) (n : Node) (hn : n ∈ g.inputs) :
    c.Owns n ∧ n.label < g.label := by
  obtain ⟨hown, hlt⟩ := hc.made g hg n hn
  have hpos := (hc.label_of_mem hg).1
  exact ⟨hown, hlt (by omega)⟩

theorem owns_inputs (hc : c.Valid) {n m : Node} (hn : c.Owns n) (hm : m ∈ n.inputs) :
    c.Owns m ∧ m.label < n.label := by
  rcases hn.cases with ⟨value, rfl⟩ | ⟨v, rfl, -⟩ | ⟨hg, -⟩
  · cases hm
  · cases hm
  · exact hc.inputs n hg m hm

end Valid

end Circuit

end IntCircuit
