import IntCircuit.Proofs.Circuit.Junctions

/-!
# Inputs one by one and all at once

A connective can be given its inputs in a list, or through a junction, one after another and with
or without those that come after the absorbing constant. The gate is the same, down to its label:
what a junction leaves out is what folding leaves out.

## Main definitions

* `Junction.Gathers`: the junctions that a caller may have when it has gone through a list
* `Junction.Holds`: what a junction has made of a list

## Main results

* `Junction.Gathers.holds`: every such junction has made the same of it
* `Junction.Gathers.accumulate_run`: it gives the gate of the list and leaves the same circuit
-/

namespace IntCircuit

variable {op : Connective} {nodes : List Node} {n : Node} {j : Junction}

theorem Node.constant?_eq_some {value : Bool} : n.constant? = some value ↔ n = .const value := by
  cases n <;> simp [Node.constant?]

namespace Connective

theorem any_absorbing :
    (nodes.any fun n => n.constant? == some op.absorbing) = true ↔
      .const op.absorbing ∈ nodes := by
  simp only [List.any_eq_true, beq_iff_eq, Node.constant?_eq_some, exists_eq_right]

/-- The absorbing constant settles the connective. -/
theorem fold_of_mem (h : .const op.absorbing ∈ nodes) :
    op.fold nodes = .node (.const op.absorbing) := by
  rw [fold, if_pos (any_absorbing.mpr h)]

/-- Folding drops the constants that do not settle the connective, so it does not matter whether
they are there. -/
theorem fold_filter (h : .const op.absorbing ∉ nodes) :
    op.fold (nodes.filter fun n => !n.isConst) = op.fold nodes := by
  have hrest : .const op.absorbing ∉ nodes.filter fun n => !n.isConst := fun hmem =>
    h (List.mem_filter.mp hmem).1
  rw [fold, fold, if_neg (mt any_absorbing.mp h), if_neg (mt any_absorbing.mp hrest),
    List.filter_filter]
  simp only [Bool.and_self]

end Connective

namespace Junction

/-- The junctions that a caller may have when it has gone through a list of nodes: it has begun
with none of them or with a list, has added them one by one, and may have left out any once the
junction was decided. -/
inductive Gathers (op : Connective) : List Node → Junction → Prop
  | start {j : Junction} : ofOperator op.operator = .ok j → Gathers op [] j
  | ofList (nodes : List Node) : Gathers op nodes (Junction.ofList op nodes)
  | add {nodes : List Node} {j : Junction} (n : Node) : Gathers op nodes j →
      Gathers op (nodes ++ [n]) (j.add n)
  | leave {nodes : List Node} {j : Junction} (n : Node) : Gathers op nodes j →
      j.decided?.isSome → Gathers op (nodes ++ [n]) j

/-- What a junction has made of a list of nodes: it is decided if the absorbing constant is among
them, and else it holds all that are not constants. -/
structure Holds (j : Junction) (op : Connective) (nodes : List Node) : Prop where
  connective : j.op = op
  decided : j.isDecided = true ↔ .const op.absorbing ∈ nodes
  inputs : j.inputs.toList = if j.isDecided then [] else nodes.filter fun n => !n.isConst

namespace Holds

theorem empty (op : Connective) : (Junction.empty op).Holds op [] :=
  ⟨rfl, by simp [Junction.empty], rfl⟩

/-- What comes after the absorbing constant changes nothing. -/
theorem append_of_decided (h : j.Holds op nodes) (hj : j.isDecided = true) (others : List Node) :
    j.Holds op (nodes ++ others) := by
  refine ⟨h.connective, iff_of_true hj (List.mem_append_left _ (h.decided.mp hj)), ?_⟩
  rw [h.inputs, if_pos hj, if_pos hj]

/-- An input that is no constant is kept. -/
theorem push (h : j.Holds op nodes) (hj : j.isDecided = false) (hn : n.isConst = false) :
    ({ j with inputs := j.inputs.push n } : Junction).Holds op (nodes ++ [n]) := by
  refine ⟨h.connective, ?_, ?_⟩
  · have hne : Node.const op.absorbing ≠ n := by
      rintro rfl
      cases hn
    simp [h.decided, hne]
  · simp [h.inputs, hj, hn]

theorem add (h : j.Holds op nodes) (n : Node) : (j.add n).Holds op (nodes ++ [n]) := by
  by_cases hj : j.isDecided = true
  · rw [Junction.add.eq_def, if_pos hj]
    exact h.append_of_decided hj _
  have hopen : j.isDecided = false := Bool.eq_false_iff.mpr hj
  have habsent : .const op.absorbing ∉ nodes := fun hmem => hj (h.decided.mpr hmem)
  rw [Junction.add.eq_def, if_neg hj]
  cases n with
  | const value =>
    dsimp only
    rw [h.connective]
    split
    next hsettle =>
      subst hsettle
      exact ⟨rfl, by simp, by simp⟩
    next hignored =>
      -- the other constant neither decides nor is held
      refine ⟨h.connective, ?_, ?_⟩
      · simp [h.decided, Ne.symm hignored]
      · simp [h.inputs, hopen, Node.isConst, Node.constant?]
  | var _ => exact h.push hopen rfl
  | nary _ _ _ => exact h.push hopen rfl
  | not _ _ => exact h.push hopen rfl
  | ite _ _ _ _ => exact h.push hopen rfl

theorem addUntilDecided (h : j.Holds op nodes) (others : List Node) :
    (j.addUntilDecided others).Holds op (nodes ++ others) := by
  induction others generalizing j nodes with
  | nil => simpa [Junction.addUntilDecided] using h
  | cons n rest ih =>
    have hn := h.add n
    rw [Junction.addUntilDecided]
    split
    next hdecided => simpa using hn.append_of_decided hdecided rest
    next => simpa using ih hn

/-- **The gate over a junction is the gate over the list**: the same node, and the same circuit
after it. -/
theorem accumulate_eq (h : j.Holds op nodes) : Build.accumulate j = Build.nary op nodes := by
  rw [Build.accumulate, h.connective]
  split
  next hdecided => rw [Build.nary, Connective.fold_of_mem (h.decided.mp hdecided)]
  next hopen =>
    have habsent : .const op.absorbing ∉ nodes := fun hmem => hopen (h.decided.mpr hmem)
    rw [Build.nary, Build.nary, h.inputs, if_neg hopen, Connective.fold_filter habsent]

theorem decided?_eq_some (h : j.Holds op nodes) :
    j.decided? = some op.absorbing ↔ .const op.absorbing ∈ nodes := by
  rw [← h.decided, Junction.decided?, h.connective]
  cases j.isDecided <;> simp

theorem decided?_eq_none (h : j.Holds op nodes) :
    j.decided? = none ↔ .const op.absorbing ∉ nodes := by
  rw [← h.decided, Junction.decided?]
  cases j.isDecided <;> simp

theorem inputs_of_mem (h : j.Holds op nodes) (hmem : .const op.absorbing ∈ nodes) :
    j.inputs = #[] := by
  rw [← Array.toList_eq_nil_iff, h.inputs, if_pos (h.decided.mpr hmem)]

end Holds

namespace Gathers

/-- However a caller goes through a list, its junction makes the same of it. -/
theorem holds (h : Gathers op nodes j) : j.Holds op nodes := by
  induction h with
  | start hj =>
    have hempty : ofOperator op.operator = .ok (Junction.empty op) := by cases op <;> rfl
    obtain rfl := Except.ok.inj (hempty.symm.trans hj)
    exact .empty op
  | ofList nodes => exact (Holds.empty op).addUntilDecided nodes
  | add n _ ih => exact ih.add n
  | @leave nodes j n _ hdecided ih =>
    refine ih.append_of_decided ?_ [n]
    rw [decided?] at hdecided
    by_contra hopen
    rw [if_neg hopen] at hdecided
    cases hdecided

/-- **Inputs one by one are inputs all at once.** Whichever way a caller goes through a list, the
junction it has gives the gate of the whole list and leaves the same circuit. On one more node the
junction answers with the absorbing constant if and only if that constant has come, and from then
on it holds no inputs. -/
theorem accumulate_run (h : Gathers op nodes j) :
    (∀ c : Circuit, (Build.accumulate j).run c = (Build.nary op nodes).run c) ∧
      (∀ n, ((j.add n).decided? = some op.absorbing ↔ .const op.absorbing ∈ nodes ++ [n]) ∧
        ((j.add n).decided? = none ↔ .const op.absorbing ∉ nodes ++ [n])) ∧
      (.const op.absorbing ∈ nodes → j.inputs = #[]) := by
  refine ⟨fun c => by rw [h.holds.accumulate_eq], fun n => ?_, h.holds.inputs_of_mem⟩
  exact ⟨(h.holds.add n).decided?_eq_some, (h.holds.add n).decided?_eq_none⟩

/-- A caller that stops at the truth constant of a disjunction and passes over a variable. -/
theorem exists_accumulate_run : ∃ j : Junction,
    Gathers .or [.var 1, .const true, .var 2] j ∧ j.inputs = #[] ∧
      ∀ c : Circuit, (Build.accumulate j).run c =
        (Build.nary .or [.var 1, .const true, .var 2]).run c := by
  have hgathers : Gathers .or [.var 1, .const true, .var 2]
      (((Junction.empty .or).add (.var 1)).add (.const true)) :=
    (((Gathers.start rfl).add (.var 1)).add (.const true)).leave (.var 2) rfl
  obtain ⟨hrun, -, hinputs⟩ := accumulate_run hgathers
  exact ⟨_, hgathers, hinputs (by simp [Connective.absorbing]), hrun⟩

end Gathers

end Junction

end IntCircuit
