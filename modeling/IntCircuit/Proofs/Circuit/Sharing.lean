import IntCircuit.Proofs.Circuit.History
import Mathlib.Data.List.Sort

/-!
# Shared gates

A circuit that shares gates makes no gate twice. What has been made for a signature is found under
it at any later moment, and folding looks at the inputs of a gate and at nothing else. So there are
no two gates over the same inputs, and a computation that is done again leads to the same nodes and
makes no gate.

## Main definitions

* `Node.Alike`: gates with one operator and the same inputs
* `Connective.essential`: the inputs that a connective does not ignore
* `Folded.Agrees`: what folding leaves of lists of inputs that are the same in another order

## Main results

* `Circuit.find?_intern`, `Circuit.intern_of_find?`: a signature leads to one gate for good
* `Build.Grows.again`: computations done again
* `Circuit.Valid.eq_of_alike`: no two gates over the same inputs
* `Circuit.Valid.fold_agrees`: folding does not depend on the order of inputs
* `Circuit.Reachable.shares`: what sharing means on every circuit that calls lead to
-/

namespace IntCircuit

namespace Label

theorem pairwise_insert (label : Int) {labels : List Int} (h : labels.Pairwise (· ≤ ·)) :
    (insert label labels).Pairwise (· ≤ ·) := by
  induction labels with
  | nil => exact List.pairwise_singleton _ _
  | cons first rest ih =>
    obtain ⟨hfirst, hrest⟩ := List.pairwise_cons.mp h
    rw [insert]
    split
    next hle =>
      refine List.pairwise_cons.mpr ⟨fun l hl => ?_, h⟩
      rcases List.mem_cons.mp hl with rfl | hl
      · exact hle
      · exact Int.le_trans hle (hfirst l hl)
    next hle =>
      refine List.pairwise_cons.mpr ⟨fun l hl => ?_, ih hrest⟩
      rcases List.mem_cons.mp ((insert_perm label rest).subset hl) with rfl | hl
      · exact Int.le_of_lt (Int.not_le.mp hle)
      · exact hfirst l hl

theorem pairwise_sort (labels : List Int) : (sort labels).Pairwise (· ≤ ·) := by
  induction labels with
  | nil => exact .nil
  | cons label rest ih => exact pairwise_insert label ih

/-- The order in which labels come is lost in sorting. -/
theorem sort_eq_of_perm {labels others : List Int} (h : labels.Perm others) :
    sort labels = sort others :=
  ((sort_perm labels).trans (h.trans (sort_perm others).symm)).eq_of_pairwise'
    (pairwise_sort labels) (pairwise_sort others)

end Label

/-! ## One gate for each signature -/

namespace Circuit

variable {c d : Circuit} {s : Signature} {g : Node}

theorem find?_mono (h : c ≤ d) (hg : c.find? s = some g) : d.find? s = some g := by
  rw [find?] at hg ⊢
  rw [h.sharing]
  split at hg
  next hs => rw [if_pos hs, h.shared s g hg]
  next => cases hg

/-- A signature that there is a gate for gets no other. -/
theorem intern_of_find? (h : c.find? s = some g) (make : Tag → Node) :
    c.intern s make = (g, c) := by
  rw [intern, h]

/-- What interning returns is what the signature leads to from then on. -/
theorem find?_intern (hs : c.sharing = true) (s : Signature) (make : Tag → Node) :
    (c.intern s make).2.find? s = some (c.intern s make).1 := by
  cases hfind : c.find? s with
  | some g => rw [intern_of_find? hfind, hfind]
  | none =>
    have hpush : c.intern s make = (make c.nextTag, c.push s (make c.nextTag)) := by
      rw [intern, hfind]
    have hsharing : (c.push s (make c.nextTag)).sharing = true := hs
    rw [hpush, find?, if_pos hsharing, shared_push, if_pos ⟨hs, rfl⟩]

end Circuit

namespace Build

variable {c e : Circuit}

theorem run_intern (s : Signature) (make : Tag → Node) (c : Circuit) :
    (intern s make).run c = c.intern s make := rfl

/-- Interning once more, at any later moment and whatever gate it would make. -/
theorem intern_again (hs : c.sharing = true) {s : Signature} {make : Tag → Node}
    (other : Tag → Node) (h : ((intern s make).run c).2 ≤ e) :
    (intern s other).run e = (((intern s make).run c).1, e) :=
  Circuit.intern_of_find? (Circuit.find?_mono h (Circuit.find?_intern hs s make)) other

/-- **A computation done again** on a later state returns what it has returned before and leaves
that state as it is, if gates are shared. -/
theorem Grows.again {α : Type} {m : Build α} [hm : Grows m] (hs : c.sharing = true)
    (h : (m.run c).2 ≤ e) : m.run e = ((m.run c).1, e) := by
  induction hm generalizing c e with
  | pure a => rfl
  | intern htag => exact intern_again hs _ h
  | @look α f hf hsame ih =>
    -- the later state has the same bitwidth
    have hgrown : c ≤ ((f c).run c).2 := (hf c).grown c
    have hwidth := (hgrown.trans h).bitwidth
    change (f e).run e = (((f c).run c).1, e)
    rw [hsame e c hwidth]
    exact ih c hs h
  | @bind α β m f hm hf ihm ihf =>
    let d := (m.run c).2
    have hcd : c ≤ d := hm.grown c
    have hdlast : d ≤ ((f (m.run c).1).run d).2 := (hf _).grown d
    have hfirst : m.run e = ((m.run c).1, e) := ihm hs (hdlast.trans h)
    change (f (m.run e).1).run (m.run e).2 = _
    rw [hfirst]
    exact ihf (m.run c).1 (hcd.sharing.trans hs) h

end Build

/-! ## Gates over the same inputs -/

namespace Node

/-- Gates with one operator and the same inputs: the same set of them for a connective, one for a
negation, and the same three in the same order for a choice. -/
def Alike : Node → Node → Prop
  | nary _ op inputs, nary _ other others => op = other ∧ ∀ n, n ∈ inputs ↔ n ∈ others
  | not _ input, not _ other => input = other
  | ite _ condition consequent alternative, ite _ condition' consequent' alternative' =>
    condition = condition' ∧ consequent = consequent' ∧ alternative = alternative'
  | _, _ => False

theorem nodup_of_labels {nodes : List Node} (h : (nodes.map label).Nodup) : nodes.Nodup :=
  List.Nodup.of_map label h

/-- Gates in normal form over the same inputs have one signature. -/
theorem Alike.signature {g k : Node} (h : g.Alike k) (hg : g.Normal) (hk : k.Normal) :
    g.signature? = k.signature? := by
  cases g <;> cases k <;> try exact h.elim
  case nary.nary _ op inputs _ other others =>
    obtain ⟨rfl, hmem⟩ := h
    -- no input is repeated, so the two lists differ in their order only
    have hperm : inputs.Perm others :=
      (List.perm_ext_iff_of_nodup (nodup_of_labels hg.2.2.1) (nodup_of_labels hk.2.2.1)).mpr hmem
    rw [signature?, signature?, Label.sort_eq_of_perm (hperm.map label)]
  case not.not _ input _ other =>
    obtain rfl : input = other := h
    rfl
  case ite.ite _ condition consequent alternative _ condition' consequent' alternative' =>
    obtain ⟨rfl, rfl, rfl⟩ := h
    rfl

theorem eq_not_of_signature {g : Node} {l : Int} (h : g.signature? = some (.not l)) :
    ∃ tag input, g = .not tag input ∧ input.label = l := by
  cases g <;> simp only [signature?, Option.some.injEq, Signature.not.injEq, reduceCtorEq] at h
  exact ⟨_, _, rfl, h⟩

end Node

theorem Circuit.Sound.find?_of_mem {c : Circuit} (hc : c.Sound) (hs : c.sharing = true) {g : Node}
    (hg : g ∈ c.gates) {s : Signature} (h : g.signature? = some s) : c.find? s = some g := by
  rw [find?, if_pos hs]
  exact hc.kept hs g hg s h

namespace Circuit.Valid

variable {c : Circuit}

/-- **Signatures tell gates apart** if gates are shared. -/
theorem eq_of_signature (hc : c.Valid) (hs : c.sharing = true) {g k : Node} (hg : g ∈ c.gates)
    (hk : k ∈ c.gates) (h : g.signature? = k.signature?) : g = k := by
  obtain ⟨_, -, htag⟩ := hc.tag_of_mem hg
  obtain ⟨s, hsig⟩ : ∃ s, g.signature? = some s := by
    cases g <;> first | exact ⟨_, rfl⟩ | cases htag
  have hfirst := hc.find?_of_mem hs hg hsig
  have hsecond := hc.find?_of_mem hs hk (h.symm.trans hsig)
  exact Option.some.inj (hfirst.symm.trans hsecond)

/-- **No two gates have the same inputs** under one operator if gates are shared. -/
theorem eq_of_alike (hc : c.Valid) (hs : c.sharing = true) {g k : Node} (hg : g ∈ c.gates)
    (hk : k ∈ c.gates) (h : g.Alike k) : g = k :=
  hc.eq_of_signature hs hg hk (h.signature (hc.normal g hg) (hc.normal k hk))

end Circuit.Valid

/-! ## Folding in any order -/

/-- The inputs of a connective without the constant that it ignores. -/
def Connective.essential (op : Connective) (inputs : List Node) : List Node :=
  inputs.filter fun n => n.constant? != some op.identity

/-- Folding has left one node of both, or inputs that differ in their order only. -/
def Folded.Agrees : Folded → Folded → Prop
  | node n, node m => n = m
  | gate rest, gate others => rest.Perm others
  | _, _ => False

theorem Connective.mem_essential {op : Connective} {inputs : List Node} {n : Node} :
    n ∈ op.essential inputs ↔ n ∈ inputs ∧ n.constant? ≠ some op.identity := by
  simp [essential]

theorem Connective.absorbing_ne_identity (op : Connective) : op.absorbing ≠ op.identity := by
  cases op <;> decide

namespace Circuit.Valid

variable {c : Circuit} {nodes others : List Node}

/-- Lists with the same members are the same in another order once they are thinned out. -/
theorem distinct_perm (hc : c.Valid) (hn : ∀ n ∈ nodes, c.Owns n) (ho : ∀ n ∈ others, c.Owns n)
    (h : ∀ n, n ∈ nodes ↔ n ∈ others) : (Node.distinct nodes).Perm (Node.distinct others) := by
  refine (List.perm_ext_iff_of_nodup ?_ ?_).mpr fun n => ?_
  · exact Node.nodup_of_labels (Node.nodup_distinct nodes)
  · exact Node.nodup_of_labels (Node.nodup_distinct others)
  · rw [hc.mem_distinct hn, hc.mem_distinct ho, h]

/-- Labels tell which inputs a connective does not ignore. -/
theorem mem_essential_iff (hc : c.Valid) {op : Connective} (hn : ∀ n ∈ nodes, c.Owns n)
    (ho : ∀ n ∈ others, c.Owns n)
    (h : ∀ l, l ∈ (op.essential nodes).map Node.label ↔ l ∈ (op.essential others).map Node.label)
    (n : Node) : n ∈ op.essential nodes ↔ n ∈ op.essential others := by
  have hn' (m : Node) (hm : m ∈ op.essential nodes) : c.Owns m := hn m (List.mem_of_mem_filter hm)
  have ho' (m : Node) (hm : m ∈ op.essential others) : c.Owns m := ho m (List.mem_of_mem_filter hm)
  exact ⟨hc.mem_of_labels_subset hn' ho' fun l => (h l).mp,
    hc.mem_of_labels_subset ho' hn' fun l => (h l).mpr⟩

end Circuit.Valid

theorem Node.complementary_of_perm {nodes others : List Node} (h : nodes.Perm others) :
    complementary nodes = complementary others := by
  simp only [complementary, h.any_eq]

/-- **Folding does not depend on the order of inputs**, nor on repetitions and ignored constants. -/
theorem Circuit.Valid.fold_agrees {c : Circuit} (hc : c.Valid) (op : Connective)
    {inputs others : List Node} (hn : ∀ n ∈ inputs, c.Owns n) (ho : ∀ n ∈ others, c.Owns n)
    (h : ∀ n, n ∈ op.essential inputs ↔ n ∈ op.essential others) :
    (op.fold inputs).Agrees (op.fold others) := by
  have hmem {n : Node} (hne : n.constant? ≠ some op.identity) : n ∈ inputs ↔ n ∈ others := by
    simpa [Connective.mem_essential, hne] using h n
  -- the constant that settles the connective is one that it does not ignore
  have hsettle : inputs.any (fun n => n.constant? == some op.absorbing) =
      others.any fun n => n.constant? == some op.absorbing := by
    rw [Bool.eq_iff_iff, List.any_eq_true, List.any_eq_true]
    refine exists_congr fun n => and_congr_left fun hn => hmem ?_
    rw [beq_iff_eq.mp hn]
    exact fun heq => op.absorbing_ne_identity (Option.some.inj heq)
  -- and so is whatever is no constant
  have hperm : (Node.distinct (inputs.filter fun n => !n.isConst)).Perm
      (Node.distinct (others.filter fun n => !n.isConst)) := by
    refine hc.distinct_perm (fun n hn' => hn n (List.mem_of_mem_filter hn'))
      (fun n ho' => ho n (List.mem_of_mem_filter ho')) fun n => ?_
    rw [List.mem_filter, List.mem_filter]
    refine and_congr_left fun hconst => hmem ?_
    intro hvalue
    simp [Node.isConst, hvalue] at hconst
  rw [Connective.fold, Connective.fold, hsettle]
  split
  next => rfl
  next =>
    simp only
    rw [Node.complementary_of_perm hperm]
    split
    next => rfl
    next =>
      -- from here on it does not matter how the inputs were thinned out
      generalize Node.distinct (inputs.filter fun n => !n.isConst) = rest at hperm
      generalize Node.distinct (others.filter fun n => !n.isConst) = left at hperm
      rcases rest with _ | ⟨n, _ | ⟨m, rest⟩⟩
      · obtain rfl := hperm.nil_eq
        rfl
      · obtain rfl := List.singleton_perm.mp hperm
        rfl
      · -- what is the same in another order has as many members
        rcases left with _ | ⟨k, _ | ⟨l, left⟩⟩
        · cases hperm.length_eq
        · cases hperm.length_eq
        · exact hperm

namespace Build

variable {c e : Circuit}

/-- A connective over the same inputs in another order, at any later moment. -/
theorem nary_again {op : Connective} {inputs others : List Node} (hs : c.sharing = true)
    (h : (op.fold inputs).Agrees (op.fold others)) (he : ((nary op inputs).run c).2 ≤ e) :
    (nary op others).run e = (((nary op inputs).run c).1, e) := by
  unfold nary at he ⊢
  cases hfold : op.fold inputs <;> cases hother : op.fold others <;>
    simp only [hfold, hother] at h he ⊢
  case node.node n m =>
    obtain rfl : n = m := h
    rfl
  case node.gate => exact h.elim
  case gate.node => exact h.elim
  case gate.gate rest others =>
    -- both gates have the signature of the labels in ascending order
    rw [Label.sort_eq_of_perm (List.Perm.map Node.label h)] at he ⊢
    exact intern_again hs _ he

/-- A negation that there is already is found again. -/
theorem run_not_of_owns (hs : c.sharing = true) (hc : c.Sound) {tag : Tag} {x : Node}
    (h : c.Owns (.not tag x)) : (not x).run c = (.not tag x, c) := by
  obtain ⟨hconst, hinput⟩ := hc.normal_of_owns h
  rw [not_eq_intern hconst hinput, run_intern]
  exact Circuit.intern_of_find? (hc.find?_of_mem hs h rfl) _

/-- **The negation of a negation**, made at any later moment, is the node itself. -/
theorem not_not (hs : c.sharing = true) {x : Node} (hx : c.Owns x) (he : e.Valid)
    (h : ((not x).run c).2 ≤ e) : (not ((not x).run c).1).run e = (x, e) := by
  have hgrown : c ≤ e := (Grows.grown (m := not x) c).trans h
  have hse : e.sharing = true := hgrown.sharing.trans hs
  have hxe : e.Owns x := hx.mono hgrown
  cases hconst : x.isConst with
  | true =>
    obtain ⟨value, rfl⟩ := Node.eq_const_of_isConst hconst
    change (Node.const !!value, e) = _
    rw [Bool.not_not]
  | false =>
    cases hinput : x.notInput? with
    | some input =>
      -- the first negation has taken off the one that `x` is, and the second finds it
      obtain ⟨tag, rfl⟩ : ∃ tag, x = .not tag input := by
        cases x <;> cases hinput
        exact ⟨_, rfl⟩
      exact run_not_of_owns hse he hxe
    | none =>
      -- the first negation is a gate over the node with the label of `x`, and that is `x`
      rw [not_eq_intern hconst hinput, run_intern] at h ⊢
      have hfind := Circuit.find?_mono h (Circuit.find?_intern hs (.not x.label) _)
      obtain ⟨hmem, hsig⟩ := he.found _ _ (Circuit.find?_eq_some hfind)
      obtain ⟨tag, input, hgate, hlabel⟩ := Node.eq_not_of_signature hsig
      rw [hgate] at hmem ⊢
      have hown : e.Owns input := (he.inputs _ hmem input (List.mem_singleton_self input)).1
      rw [he.eq_of_label hown hxe hlabel]
      rfl

end Build

namespace Circuit

/-- **Sharing is canonical.** On any reachable circuit that shares gates, two gates with one
operator and the same inputs are one. So a connective over inputs with the labels of an earlier
call, in any order, with repetitions and with constants that it ignores, returns the node of that
call at any later moment and makes no gate. The negation of the negation of a node is that node. -/
theorem Reachable.shares {c : Circuit} (hc : c.Reachable) (hs : c.sharing = true)
    (hl : c.maxLabel ≤ labelLimit) :
    (∀ g ∈ c.gates, ∀ k ∈ c.gates, g.Alike k → g = k) ∧
    (∀ (op : Connective) (inputs others : List Node) (e : Circuit),
      (∀ n ∈ inputs, c.Owns n) → ((Build.nary op inputs).run c).2.Reaches e →
      e.maxLabel ≤ labelLimit → (∀ n ∈ others, e.Owns n) →
      (∀ l, l ∈ (op.essential inputs).map Node.label ↔ l ∈ (op.essential others).map Node.label) →
      (Build.nary op others).run e = (((Build.nary op inputs).run c).1, e)) ∧
    ∀ (x : Node) (e : Circuit), c.Owns x → ((Build.not x).run c).2.Reaches e →
      e.maxLabel ≤ labelLimit →
      (Build.not ((Build.not x).run c).1).run e = (x, e) := by
  refine ⟨fun g hg k hk h => (hc.valid hl).eq_of_alike hs hg hk h, ?_, ?_⟩
  · intro op inputs others e hn hreach hle ho hlabels
    have hafter := hc.reaches (Reaches.single (.join op inputs) hn)
    have he : e.Valid := (hafter.reaches hreach).valid hle
    have hgrown : c ≤ e := (Build.Grows.grown (m := Build.nary op inputs) c).trans hreach.grown
    have hne (n : Node) (h : n ∈ inputs) : e.Owns n := (hn n h).mono hgrown
    exact Build.nary_again hs (he.fold_agrees op hne ho (he.mem_essential_iff hne ho hlabels))
      hreach.grown
  · intro x e hx hreach hle
    have hafter := hc.reaches (Reaches.single (.not x) (by simpa [GateCall.operands] using hx))
    exact Build.not_not hs hx ((hafter.reaches hreach).valid hle) hreach.grown

/-- The conjunction of two variables, made once more in another order after a disjunction. -/
theorem shares_two_variables :
    ∃ c d e : Circuit, create 0 3 {} = .ok c ∧
      d = ((Build.nary .and [.var 1, .const true, .var 2, .var 1]).run c).2 ∧
      e = ((Build.or (.var 1) (.var 3)).run d).2 ∧ e.numGates = 2 ∧
      (Build.nary .and [.var 2, .var 1, .var 2]).run e =
        (((Build.nary .and [.var 1, .const true, .var 2, .var 1]).run c).1, e) := by
  let start : Circuit := ⟨0, 3, 4, true, by decide, by decide, by decide, #[], ∅⟩
  have hstart : create 0 3 {} = .ok start := rfl
  obtain ⟨-, hshares, -⟩ := (Reachable.of_create hstart).shares rfl (by decide)
  refine ⟨start, _, _, hstart, rfl, rfl, by decide, ?_⟩
  refine hshares .and _ _ _ ?_ (.single (.or (.var 1) (.var 3)) ?_) (by decide) ?_ fun l => ?_
  · simp [Owns, start]
  · simp only [GateCall.operands, List.mem_cons, List.not_mem_nil, or_false]
    rintro n (rfl | rfl) <;> exact ⟨by decide, by decide⟩
  · simp only [List.mem_cons, List.not_mem_nil, or_false]
    rintro n (rfl | rfl | rfl) <;> exact ⟨by decide, by decide⟩
  · have hfirst : (Connective.and.essential [.var 1, .const true, .var 2, .var 1]).map Node.label =
        [1, 2, 1] := rfl
    have hsecond : (Connective.and.essential [.var 2, .var 1, .var 2]).map Node.label =
        [2, 1, 2] := rfl
    rw [hfirst, hsecond]
    simp only [List.mem_cons, List.not_mem_nil, or_false]
    omega

end Circuit

end IntCircuit
