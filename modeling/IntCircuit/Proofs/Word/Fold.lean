import IntCircuit.Proofs.Word.Outcome
import Mathlib.Algebra.BigOperators.Group.List.Basic

/-!
# Any number of words

Sums and products of many words are made two words at a time, level by level, where the results of
one level have different widths and some of them have been wrapped. Nothing of this shows in the
end: the result is the sum or product of all integers, wrapped once. Conjunctions and disjunctions
of many words are made position by position, each up to the word that decides it, and their bits are
what the bits of all words make.

## Main results

* `Connective.testBit_foldl_onInt`: the bits of what a connective makes of integers
* `FoldOp.makes`: an operation on any number of words
* `Word.makes_folds`: sums, products, conjunctions and disjunctions, in whatever order
-/

namespace IntCircuit

theorem Connective.testBit_onInt (op : Connective) (m n : Int) (i : Nat) :
    (op.onInt m n).testBit i = op.join [m.testBit i, n.testBit i] := by
  rw [← op.bitwise_join, Int.testBit_bitwise]

/-- **A bit of what a connective makes of integers** is what it makes of their bits. -/
theorem Connective.testBit_foldl_onInt (op : Connective) (m : Int) (values : List Int) (i : Nat) :
    (values.foldl op.onInt m).testBit i =
      op.join (m.testBit i :: values.map fun n => n.testBit i) := by
  induction values generalizing m with
  | nil => rw [List.foldl_nil, List.map_nil, op.join_singleton]
  | cons n rest ih =>
    rw [List.foldl_cons, ih, op.testBit_onInt, List.map_cons, ← op.join_cons_cons]

/-- A connective does not mind the order of what it joins. -/
theorem Connective.join_perm (op : Connective) {values others : List Bool}
    (h : values.Perm others) : op.join values = op.join others :=
  Connective.join_congr h.mem_iff

variable {w : Workspace} {c : Circuit} {x : Word} {words others : List Word}

/-- **An operation on any number of words** of one circuit makes what it makes of their integers one
after another, wrapped to the bitwidth. -/
theorem FoldOp.makes (op : FoldOp) (hw : w.Holds c) (hx : c.HasWord x)
    (hothers : ∀ y ∈ others, c.HasWord y) :
    (op.run x others).Makes w c fun σ n =>
      n = wrap c.bitwidth ((others.map (Word.denote σ)).foldl op.onInt (x.denote σ)) :=
  Work.Ensures.makes
    (f := fun b σ => wrap b ((others.map (Word.denote σ)).foldl op.onInt (x.denote σ)))
    (op.ensures_run hx.owner (fun y hy => (hothers y hy).owner)
      fun hc => ⟨hc, hx.owns, fun y hy => (hothers y hy).owns⟩) hw

/-- A connective over words needs no wrapping. -/
theorem Word.makes_joinAll (op : Connective) (hw : w.Holds c) (hx : c.HasWord x)
    (hothers : ∀ y ∈ others, c.HasWord y) :
    (joinAll op x others).Makes w c fun σ n =>
      n = (others.map (denote σ)).foldl op.onInt (x.denote σ) :=
  Work.Ensures.makes
    (f := fun _ σ => (others.map (denote σ)).foldl op.onInt (x.denote σ))
    ((ensures_joinAll op hx.owner fun y hy => (hothers y hy).owner).given
      fun hc => ⟨hc, hx.owns, fun y hy => (hothers y hy).owns⟩) hw

/-- **Sums and products of any number of words** are those of all the integers, wrapped once to the
bitwidth, and **conjunctions and disjunctions** are so at every bit of the integers, without end. It
does not matter in which order the words come. -/
theorem Word.makes_folds (hw : w.Holds c) (hx : c.HasWord x) (hwords : ∀ y ∈ words, c.HasWord y)
    (horder : others.Perm words) :
    ((sumAll x others).Makes w c fun σ n =>
      n = wrap c.bitwidth (x.denote σ + (words.map (denote σ)).sum)) ∧
    ((productAll x others).Makes w c fun σ n =>
      n = wrap c.bitwidth (x.denote σ * (words.map (denote σ)).prod)) ∧
    ∀ op : Connective, (joinAll op x others).Makes w c fun σ n => ∀ i,
      n.testBit i =
        op.join ((x.denote σ).testBit i :: words.map fun y => (y.denote σ).testBit i) := by
  have hothers : ∀ y ∈ others, c.HasWord y := fun y hy => hwords y (horder.mem_iff.mp hy)
  refine ⟨?_, ?_, fun op => ?_⟩
  · apply (FoldOp.makes .sum hw hx hothers).imp
    rintro σ n rfl
    rw [← (horder.map (denote σ)).sum_eq]
    exact congrArg (wrap c.bitwidth) (List.foldl_eq_apply_foldr (f := (· + ·)))
  · apply (FoldOp.makes .product hw hx hothers).imp
    rintro σ n rfl
    rw [← (horder.map (denote σ)).prod_eq]
    exact congrArg (wrap c.bitwidth) (List.foldl_eq_apply_foldr (f := (· * ·)))
  · apply (makes_joinAll op hw hx hothers).imp
    rintro σ n rfl i
    rw [op.testBit_foldl_onInt, List.map_map]
    exact op.join_perm ((horder.map fun y => (y.denote σ).testBit i).cons _)

/-- The sum of three words of one and two bits, in either order of the last two. -/
theorem Word.makes_folds_on_four_variables :
    ∃ w₀ w₁ z, Runs (Work.create 4 ⟨2, true⟩) {} 0 w₀ ∧
      Runs (sumAll ⟨0, [.var 1]⟩ [⟨0, [.var 3, .var 4]⟩, ⟨0, [.var 2]⟩]) w₀ z w₁ ∧
      ∀ σ, z.denote σ =
        wrap 2 (decode [σ 1] + (decode [σ 2] + (decode [σ 3, σ 4] + 0))) := by
  let start : Workspace := ((Work.create 4 ⟨2, true⟩).run.run {}).2
  have hcreate : Runs (Work.create 4 ⟨2, true⟩) {} 0 start := rfl
  obtain ⟨c, hw, hid, (hbits : c.bitwidth = 2), hwords⟩ :=
    Work.holds_of_runs_create hcreate
  have hx : c.HasWord ⟨0, [.var 1]⟩ := hwords 1 2 (by decide)
  have hrest : ∀ y ∈ [(⟨0, [.var 2]⟩ : Word), ⟨0, [.var 3, .var 4]⟩], c.HasWord y := by
    intro y hy
    simp only [List.mem_cons, List.not_mem_nil, or_false] at hy
    rcases hy with rfl | rfl
    · exact hwords 2 3 (by decide)
    · exact hwords 3 5 (by decide)
  obtain ⟨⟨z, w₁, d, hsum, hz⟩, -⟩ := makes_folds hw hx hrest (.swap _ _ _)
  have hl : d.maxLabel + 1 < labelModulus := hsum.maxLabel_lt (by rw [hid]; decide +kernel)
  rw [hbits] at hz
  exact ⟨start, w₁, z, hcreate, hsum.runs, (hz hl).2⟩

end IntCircuit
