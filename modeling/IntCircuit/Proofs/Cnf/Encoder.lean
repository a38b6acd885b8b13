import IntCircuit.Proofs.Cnf.Definition
import Std.Data.TreeSet.Lemmas

/-!
# Which gates the encoder defines

The encoder meets a gate on every path to it and defines it once. A label is marked before the
inputs of its gate are looked at, so that a marked gate need not be defined yet; but gates in
progress have larger labels than what is looked at, and below those every marked gate is complete.

## Main definitions

* `Encoder.Closed`: below a label, what marked gates contain is marked
* `Encoder.Defines`: one state of the encoder is another with the definitions of given gates

## Main results

* `Encoder.visit_defines`: a visit defines the gates of a node that were not marked
* `Circuit.Valid.toCnf_eq`: the clauses of a node are the definitions of its gates, and its
  assertion
-/

namespace IntCircuit

namespace Cnf

theorem addClauses_append (cnf : Cnf) (clauses rest : List Clause) :
    cnf.addClauses (clauses ++ rest) = (cnf.addClauses clauses).addClauses rest :=
  List.foldl_append

theorem toList_addClauses (cnf : Cnf) (clauses : List Clause) :
    (cnf.addClauses clauses).clauses.toList = cnf.clauses.toList ++ clauses := by
  induction clauses generalizing cnf with
  | nil => simp [addClauses]
  | cons clause rest ih =>
    rw [addClauses, List.foldl_cons, ← addClauses, ih]
    simp [addClause]

end Cnf

namespace Encoder

variable {c : Circuit} {e e₁ e₂ : Encoder} {roots others gs ks : List Node} {bound : Int}

theorem mem_mark (e : Encoder) (label l : Int) :
    l ∈ (e.mark label).visited ↔ l = label ∨ l ∈ e.visited := by
  rw [mark, Std.TreeSet.mem_insert, Std.LawfulEqOrd.compare_eq_iff_eq, eq_comm]

/-- A visit to a gate marks it, visits its inputs and defines it, unless it is marked. -/
theorem visit_of_tag? {n : Node} {tag : Tag} (h : n.tag? = some tag) :
    e.visit n =
      if n.label ∈ e.visited then e
      else ((e.mark n.label).visitAll n.inputs).add n.definition := by
  cases n <;> cases h <;> simp only [visit, Node.label, Node.inputs, visitAll,
    Std.TreeSet.contains_iff_mem]; rfl

theorem visit_of_tag?_eq_none {n : Node} (h : n.tag? = none) : e.visit n = e := by
  cases n with
  | const _ => rw [visit]
  | var _ => rw [visit]
  | _ => cases h

/-- What marked gates contain is marked, for gates with labels up to the bound. -/
def Closed (e : Encoder) (c : Circuit) (bound : Int) : Prop :=
  ∀ g ∈ c.gates, g.label ≤ bound → g.label ∈ e.visited →
    ∀ k ∈ c.gates, g.Contains k → k.label ∈ e.visited

/-- The state `e₁` is `e` with the definitions of the gates `gs`, which are those that the roots
contain and that were not marked, each after the gates it contains. -/
structure Defines (c : Circuit) (e e₁ : Encoder) (roots gs : List Node) : Prop where
  cnf : e₁.cnf = e.cnf.addClauses (gs.flatMap Node.definition)
  visited : ∀ l : Int, l ∈ e₁.visited ↔
    l ∈ e.visited ∨ ∃ g ∈ gs, g.label = l
  mem : ∀ g, g ∈ gs ↔
    (g ∈ c.gates ∧ ∃ n ∈ roots, n.Contains g) ∧ g.label ∉ e.visited
  ordered : gs.Pairwise fun g k => ¬g.Contains k

theorem Defines.of_nil (h : ∀ g ∈ c.gates, ∀ n ∈ roots, n.Contains g →
    g.label ∈ e.visited) : Defines c e e roots [] where
  cnf := rfl
  visited l := by simp
  mem g := by
    simp only [List.not_mem_nil, false_iff, not_and, not_not]
    rintro ⟨hg, n, hn, hng⟩
    exact h g hg n hn hng
  ordered := .nil

/-- One visit after another. -/
theorem Defines.append (hc : c.Valid) (h : Defines c e e₁ roots gs)
    (k : Defines c e₁ e₂ others ks) : Defines c e e₂ (roots ++ others) (gs ++ ks) where
  cnf := by rw [k.cnf, h.cnf, List.flatMap_append, Cnf.addClauses_append]
  visited l := by
    simp only [k.visited, h.visited, List.mem_append, or_and_right, exists_or, or_assoc]
  mem g := by
    -- not marked in between means: neither before the first visit nor by it
    have hunmarked : g.label ∉ e₁.visited ↔
        g.label ∉ e.visited ∧ ∀ k ∈ gs, k.label ≠ g.label := by
      rw [h.visited]
      simp
    rw [List.mem_append, h.mem, k.mem, hunmarked]
    constructor
    · rintro (⟨⟨hg, n, hn, hng⟩, hnew⟩ | ⟨⟨hg, n, hn, hng⟩, hnew, -⟩)
      · exact ⟨⟨hg, n, List.mem_append_left _ hn, hng⟩, hnew⟩
      · exact ⟨⟨hg, n, List.mem_append_right _ hn, hng⟩, hnew⟩
    · rintro ⟨⟨hg, n, hn, hng⟩, hnew⟩
      by_cases hseen : ∃ k ∈ gs, k.label = g.label
      · -- a gate with that label is the gate itself, for labels tell gates apart
        obtain ⟨m, hm, hlabel⟩ := hseen
        have hgates := ((h.mem m).mp hm).1.1
        rw [hc.gate_eq_of_label hgates hg hlabel] at hm
        exact .inl ((h.mem g).mp hm)
      · have hfresh : ∀ k ∈ gs, k.label ≠ g.label := fun k hk heq => hseen ⟨k, hk, heq⟩
        rcases List.mem_append.mp hn with hn | hn
        · exact .inl ⟨⟨hg, n, hn, hng⟩, hnew⟩
        · exact .inr ⟨⟨hg, n, hn, hng⟩, hnew, hfresh⟩
  ordered := by
    refine List.pairwise_append.mpr ⟨h.ordered, k.ordered, fun g hg m hm hgm => ?_⟩
    obtain ⟨⟨-, n, hn, hng⟩, -⟩ := (h.mem g).mp hg
    obtain ⟨⟨hgates, -⟩, hnew⟩ := (k.mem m).mp hm
    -- what an earlier gate contains is marked by the time of the second visit
    have hmarked : m.label ∈ e₁.visited := by
      rw [h.visited]
      by_cases hold : m.label ∈ e.visited
      · exact .inl hold
      · exact .inr ⟨m, (h.mem m).mpr ⟨⟨hgates, n, hn, hng.trans hgm⟩, hold⟩, rfl⟩
    exact hnew hmarked

/-- A visit keeps marked gates complete. -/
theorem Closed.of_defines (hc : c.Valid) (hclosed : e.Closed c bound)
    (h : Defines c e e₁ roots gs) : e₁.Closed c bound := by
  intro g hg hle hmarked k hk hgk
  rw [h.visited] at hmarked ⊢
  -- either it was complete before, or the visit has marked it, and with it all that it contains
  rcases hmarked with hmarked | ⟨m, hm, hlabel⟩
  · exact .inl (hclosed g hg hle hmarked k hk hgk)
  · obtain ⟨⟨hgates, n, hn, hnm⟩, -⟩ := (h.mem m).mp hm
    rw [hc.gate_eq_of_label hgates hg hlabel] at hnm
    by_cases hold : k.label ∈ e.visited
    · exact .inl hold
    · exact .inr ⟨k, (h.mem k).mpr ⟨⟨hk, n, hn, hnm.trans hgk⟩, hold⟩, rfl⟩

/-- A list of nodes is visited node by node. -/
theorem visitAll_defines (hc : c.Valid) {nodes : List Node} (hclosed : e.Closed c bound)
    (h : ∀ n ∈ nodes, ∀ e : Encoder, e.Closed c bound → ∃ gs, Defines c e (e.visit n) [n] gs) :
    ∃ gs, Defines c e (e.visitAll nodes) nodes gs := by
  induction nodes generalizing e with
  | nil =>
    rw [visitAll]
    exact ⟨[], .of_nil fun _ _ _ hn => (List.not_mem_nil hn).elim⟩
  | cons n rest ih =>
    rw [visitAll]
    obtain ⟨gs, hgs⟩ := h n List.mem_cons_self e hclosed
    obtain ⟨ks, hks⟩ := ih (hclosed.of_defines hc hgs) fun m hm => h m (List.mem_cons_of_mem n hm)
    exact ⟨gs ++ ks, hgs.append hc hks⟩

/-- A gate is defined after what its inputs contain. -/
theorem Defines.add_gate (hc : c.Valid) {n : Node} (hn : n ∈ c.gates) {tag : Tag}
    (htag : n.tag? = some tag) (hnew : n.label ∉ e.visited)
    (h : Defines c (e.mark n.label) e₁ n.inputs gs) :
    Defines c e (e₁.add n.definition) [n] (gs ++ [n]) where
  cnf := by
    rw [List.flatMap_append, Cnf.addClauses_append, List.flatMap_singleton]
    exact congrArg (fun cnf => cnf.addClauses n.definition) h.cnf
  visited l := by
    have hvisited := h.visited l
    rw [mem_mark] at hvisited
    simp only [List.mem_append, List.mem_singleton, or_and_right, exists_or, exists_eq_left,
      eq_comm (a := n.label)]
    rw [add, hvisited, or_comm (a := l = n.label), or_assoc, or_comm (a := l = n.label)]
  mem g := by
    have hown : c.Owns n := (Circuit.owns_gate htag).mpr hn
    rw [List.mem_append, List.mem_singleton, h.mem, mem_mark, not_or]
    constructor
    · rintro (⟨⟨hg, i, hi, hig⟩, -, hold⟩ | rfl)
      · exact ⟨⟨hg, n, List.mem_singleton_self n, Node.contains_iff.mpr (.inr ⟨i, hi, hig⟩)⟩, hold⟩
      · exact ⟨⟨hn, g, List.mem_singleton_self g, .self⟩, hnew⟩
    · rintro ⟨⟨hg, m, hm, hmg⟩, hold⟩
      rw [List.mem_singleton.mp hm] at hmg
      rcases Node.contains_iff.mp hmg with rfl | ⟨i, hi, hig⟩
      · exact .inr rfl
      -- what an input contains is not the gate in progress, for its label is smaller
      · have hlt := hc.label_lt_of_input hown hi hig
        exact .inl ⟨⟨hg, i, hi, hig⟩, Int.ne_of_lt hlt, hold⟩
  ordered := by
    have hown : c.Owns n := (Circuit.owns_gate htag).mpr hn
    refine List.pairwise_append.mpr ⟨h.ordered, List.pairwise_singleton _ _, ?_⟩
    -- no gate that an input contains can contain the gate
    intro g hg m hm hgm
    obtain ⟨⟨hgates, i, hi, hig⟩, -⟩ := (h.mem g).mp hg
    rw [List.mem_singleton.mp hm] at hgm
    have hlt := hc.label_lt_of_input hown hi (hig.trans hgm)
    exact Int.lt_irrefl _ hlt

/-- **A visit defines the gates of a node that were not marked**, each after what it contains. -/
theorem visit_defines (hc : c.Valid) {n : Node} (hn : c.Owns n) (hclosed : e.Closed c n.label) :
    ∃ gs, Defines c e (e.visit n) [n] gs := by
  induction n using Node.inputs_induction generalizing e with
  | step n ih =>
    cases htag : n.tag? with
    | none =>
      -- constants and variables contain no gate
      rw [visit_of_tag?_eq_none htag]
      refine ⟨[], .of_nil fun g hg m hm hmg => ?_⟩
      rw [List.mem_singleton.mp hm] at hmg
      obtain ⟨_, _, hgate⟩ := hc.tag_of_mem hg
      rw [Node.eq_of_contains htag hmg, htag] at hgate
      cases hgate
    | some tag =>
      have hg : n ∈ c.gates := (Circuit.owns_gate htag).mp hn
      rw [visit_of_tag? htag]
      split
      · next hmarked =>
        -- the label is within the bound, so the gate is complete and not in progress
        refine ⟨[], .of_nil fun g hgates m hm hmg => ?_⟩
        rw [List.mem_singleton.mp hm] at hmg
        exact hclosed n hg (Int.le_refl _) hmarked g hgates hmg
      · next hnew =>
        -- the gate itself is in progress now, so only what has smaller labels is complete
        have hbelow : (e.mark n.label).Closed c (n.label - 1) := by
          intro g hgates hle hmarked k hk hgk
          rw [mem_mark] at hmarked ⊢
          rcases hmarked with heq | hmarked
          · omega
          · exact .inr (hclosed g hgates (by omega) hmarked k hk hgk)
        have hinputs : ∀ m ∈ n.inputs, ∀ e : Encoder, e.Closed c (n.label - 1) →
            ∃ gs, Defines c e (e.visit m) [m] gs := fun m hm e he => by
          have hin := hc.owns_inputs hn hm
          exact ih m hm hin.1 fun g hgates hle => he g hgates (by omega)
        obtain ⟨gs, hgs⟩ := visitAll_defines hc hbelow hinputs
        exact ⟨gs ++ [n], hgs.add_gate hc hg htag hnew⟩

end Encoder

theorem Node.assertion_of_isConst {n : Node} (h : n.isConst = false) :
    n.assertion = [[n.label]] := by
  cases n <;> first | rfl | cases h

namespace Circuit.Valid

variable {c : Circuit} {n : Node}

/-- **The clauses of a node are the definitions of its gates and its assertion**, added to none.
Each gate is defined once, after the gates that it contains. -/
theorem toCnf_eq (hc : c.Valid) (hn : c.Owns n) :
    ∃ gs : List Node,
      n.toCnf = Cnf.addClauses {} (gs.flatMap Node.definition ++ n.assertion) ∧
      (∀ g, g ∈ gs ↔ g ∈ c.gates ∧ n.Contains g) ∧ gs.Pairwise fun g k => ¬g.Contains k := by
  have hclosed : Encoder.Closed {} c n.label := fun g _ _ h => by simp at h
  obtain ⟨gs, h⟩ := Encoder.visit_defines hc hn hclosed
  refine ⟨gs, ?_, ?_, h.ordered⟩
  · rw [Node.toCnf, Encoder.add, h.cnf, Cnf.addClauses_append]
  · intro g
    rw [h.mem]
    simp

theorem toCnf_clauses (hc : c.Valid) (hn : c.Owns n) :
    ∃ gs : List Node, n.toCnf.clauses.toList = gs.flatMap Node.definition ++ n.assertion ∧
      (∀ g, g ∈ gs ↔ g ∈ c.gates ∧ n.Contains g) ∧ gs.Pairwise fun g k => ¬g.Contains k := by
  obtain ⟨gs, heq, hmem, hordered⟩ := hc.toCnf_eq hn
  refine ⟨gs, ?_, hmem, hordered⟩
  rw [heq, Cnf.toList_addClauses]
  rfl

/-- The literals of a node's clauses name what the node contains. -/
theorem exists_contains_of_mem_toCnf (hc : c.Valid) (hn : c.Owns n) (hconst : n.isConst = false)
    {clause : Clause} (hclause : clause ∈ n.toCnf.clauses.toList) {l : Literal} (hl : l ∈ clause) :
    ∃ m, n.Contains m ∧ l.natAbs = m.label.natAbs := by
  obtain ⟨gs, hclauses, hmem, -⟩ := hc.toCnf_clauses hn
  rw [hclauses, Node.assertion_of_isConst hconst] at hclause
  -- a clause defines a gate of the node, or says that the node holds
  rcases List.mem_append.mp hclause with hclause | hclause
  · obtain ⟨g, hg, hclause⟩ := List.mem_flatMap.mp hclause
    obtain ⟨m, hm, heq⟩ := Node.natAbs_of_mem_definition hclause hl
    have hng := ((hmem g).mp hg).2
    rcases hm with rfl | hm
    · exact ⟨m, hng, heq⟩
    · exact ⟨m, hng.input hm, heq⟩
  · rw [List.mem_singleton.mp hclause, List.mem_singleton] at hl
    exact ⟨n, .self, congrArg Int.natAbs hl⟩

end Circuit.Valid

end IntCircuit
