import IntCircuit.Proofs.Word.Outcome

/-!
# Operations at every position

A conjunction, a disjunction or a complement is made at the positions of the wider word only, and so
is a choice. The last of these positions stands for all after it, so what is made there is the sign
of the result, which is the integer itself and never a wrapped one. A sign is made in two bits; a
bitwidth of one cuts off the second, but then no integer is positive.

## Main results

* `Word.makes_of_unary`, `Word.makes_of_binary`: operations whose integers are not wrapped
* `Word.makes_bitwise`: conjunction, disjunction, exclusive disjunction, complement, choice and sign
-/

namespace IntCircuit.Word

variable {w : Workspace} {c : Circuit} {x y : Word} {condition : Node}

/-- A word makes the integer that the bits made from its own stand for. -/
theorem makes_of_unary {op : Bits → Build Bits} [∀ x, Build.Grows (op x)] {f : (Nat → Bool) → Int}
    (hw : w.Holds c) (hx : c.HasWord x)
    (hop : c.Sound → c.OwnsWord x → Build.Ensures c (op x.bits) fun z d => d.Denotes z f) :
    (unary op x).Makes w c fun σ n => n = f σ :=
  Work.Ensures.makes (f := fun _ => f) (ensures_unary hx.owner fun hc => hop hc hx.owns) hw

/-- Two words make the integer that the bits made from theirs stand for. -/
theorem makes_of_binary {op : Bits → Bits → Build Bits} [∀ x y, Build.Grows (op x y)]
    {f : (Nat → Bool) → Int} (hw : w.Holds c) (hx : c.HasWord x) (hy : c.HasWord y)
    (hop : ∀ d, c ≤ d → d.Sound → d.OwnsWord x → d.OwnsWord y →
      Build.Ensures d (op x.bits y.bits) fun z e => e.Denotes z f) :
    (binary op x y).Makes w c fun σ n => n = f σ :=
  Work.Ensures.makes (f := fun _ => f)
    (ensures_binary hx.owner hy.owner (fun hc => ⟨hc, hx.owns, hy.owns⟩) fun _ => hop) hw

/-- **Operations at every position** are those of the same name on the integers, without wrapping,
and so are the choice between two words and the sign of a word. The condition of the choice is any
node of the circuit, and may be one of the bits. -/
theorem makes_bitwise (hw : w.Holds c) (hx : c.HasWord x) (hy : c.HasWord y)
    (hcond : c.Owns condition) :
    ((and x y).Makes w c fun σ n => n = Int.land (x.denote σ) (y.denote σ)) ∧
    ((or x y).Makes w c fun σ n => n = Int.lor (x.denote σ) (y.denote σ)) ∧
    ((xor x y).Makes w c fun σ n => n = Int.xor (x.denote σ) (y.denote σ)) ∧
    ((not x).Makes w c fun σ n => n = Int.lnot (x.denote σ)) ∧
    ((choose condition x y).Makes w c fun σ n =>
      n = if condition.eval σ then x.denote σ else y.denote σ) ∧
    ((signum x).Makes w c fun σ n => n = (x.denote σ).sign) := by
  refine ⟨?_, ?_, ?_, ?_, ?_, ?_⟩
  · exact makes_of_binary hw hx hy fun d _ => Bits.ensures_and
  · exact makes_of_binary hw hx hy fun d _ => Bits.ensures_or
  · exact makes_of_binary hw hx hy fun d _ => Bits.ensures_xor
  · exact makes_of_unary hw hx Bits.ensures_not
  · exact makes_of_binary hw hx hy fun d hcd hd => Bits.ensures_choose hd (hcond.mono hcd)
  · exact makes_of_unary hw hx Bits.ensures_signum

/-- A choice between a word of one bit and a word of two, by a bit of the second. -/
theorem makes_bitwise_on_three_variables :
    ∃ w₀ w₁ z, Runs (Work.create 3 ⟨2, true⟩) {} 0 w₀ ∧
      Runs (choose (.var 3) ⟨0, [.var 1]⟩ ⟨0, [.var 2, .var 3]⟩) w₀ z w₁ ∧
      ∀ σ, z.denote σ = if σ 3 then decode [σ 1] else decode [σ 2, σ 3] := by
  let start : Workspace := ((Work.create 3 ⟨2, true⟩).run.run {}).2
  have hcreate : Runs (Work.create 3 ⟨2, true⟩) {} 0 start := rfl
  obtain ⟨c, hw, hid, -, hwords⟩ := Work.holds_of_runs_create hcreate
  have hx : c.HasWord ⟨0, [.var 1]⟩ := hwords 1 2 (by decide)
  have hy : c.HasWord ⟨0, [.var 2, .var 3]⟩ := hwords 2 4 (by decide)
  have hcond : c.Owns (.var 3) := hy.owns.owns _ (by simp)
  obtain ⟨-, -, -, -, ⟨z, w₁, d, hchoose, hz⟩, -⟩ := makes_bitwise hw hx hy hcond
  have hl : d.maxLabel + 1 < labelModulus := hchoose.maxLabel_lt (by rw [hid]; decide +kernel)
  refine ⟨start, w₁, z, hcreate, hchoose.runs, fun σ => ?_⟩
  rw [(hz hl).2 σ, Node.eval_var]
  rfl

end IntCircuit.Word
