import IntCircuit.Proofs.Bits.Denotes
import IntCircuit.Word.Basic

/-!
# Words that stand for integers

The words that a circuit makes without any gate: integers, integers that depend on a node, and
ranges of variables.

## Main results

* `Bits.exists_isLeast_literalWidth`: the width that an integer needs
* `Circuit.denotes_literal`: an integer if a node holds, and else 0
* `Circuit.denotes_range`: the integer that the variables of a range make
-/

namespace IntCircuit

/-! ## Lists of bits -/

@[simp] theorem length_encode (width : Nat) (n : Int) : (encode width n).length = width := by
  induction width generalizing n with
  | zero => rfl
  | succ width ih => rw [encode, List.length_cons, ih]

/-- The lowest bits of an integer make it up to a power of two. -/
theorem unsigned_encode_modEq (width : Nat) (n : Int) :
    unsigned (encode width n) ≡ n [ZMOD 2 ^ width] := by
  induction width generalizing n with
  | zero =>
    rw [pow_zero]
    exact Int.modEq_one
  | succ width ih =>
    have hrest : 2 * unsigned (encode width (n / 2)) ≡ 2 * (n / 2) [ZMOD 2 ^ (width + 1)] := by
      rw [pow_succ']
      exact (ih (n / 2)).mul_left'
    have hbit : bitValue (n % 2 == 1) = n % 2 := by
      rcases Int.emod_two_eq_zero_or_one n with h | h <;> rw [h] <;> rfl
    rw [encode, unsigned_cons, hbit]
    refine (hrest.add_left _).trans ?_
    rw [Int.emod_add_mul_ediv]

namespace Bits

/-- The width of a literal is the least one in which the integer has a sign of its own, unless the
bitwidth cuts it off. -/
theorem exists_isLeast_literalWidth (bitwidth : Nat) (n : Int) :
    ∃ least, IsLeast {k | 0 < k ∧ InRange k n} least ∧
      literalWidth bitwidth n = min least bitwidth := by
  unfold literalWidth
  dsimp only
  generalize hm : (if n < 0 then -n - 1 else n).toNat = magnitude
  generalize hs : (if magnitude = 0 then 0 else magnitude.log2 + 1) = size
  have hsize (k : Nat) : size ≤ k ↔ magnitude < 2 ^ k := by
    rw [← hs]
    split
    next h => simp [h]
    next h => exact Nat.succ_le_iff.trans (Nat.log2_lt h)
  -- below zero the sign is one further down than the magnitude
  have hrange (k : Nat) : InRange (k + 1) n ↔ size ≤ k := by
    have hcast : (magnitude : Int) < 2 ^ k ↔ magnitude < 2 ^ k := by exact_mod_cast Iff.rfl
    rw [hsize, ← hcast, InRange, pow_succ']
    split at hm <;> omega
  refine ⟨size + 1, ⟨⟨Nat.succ_pos size, (hrange size).mpr (Nat.le_refl size)⟩, ?_⟩, rfl⟩
  rintro k ⟨hpos, hk⟩
  obtain ⟨j, rfl⟩ := Nat.exists_eq_add_one_of_ne_zero hpos.ne'
  exact Nat.succ_le_succ ((hrange j).mp hk)

/-- The width of a literal is the bitwidth or one in which the integer needs no wrapping. -/
theorem inRange_literalWidth (bitwidth : Nat) (n : Int) :
    literalWidth bitwidth n = bitwidth ∨ InRange (literalWidth bitwidth n) n := by
  obtain ⟨least, ⟨⟨-, hleast⟩, -⟩, hwidth⟩ := exists_isLeast_literalWidth bitwidth n
  rcases Nat.le_total bitwidth least with hle | hle
  · exact .inl (hwidth.trans (Nat.min_eq_right hle))
  · rw [hwidth, Nat.min_eq_left hle]
    exact .inr hleast

theorem literalWidth_le (bitwidth : Nat) (n : Int) : literalWidth bitwidth n ≤ bitwidth :=
  Nat.min_le_right _ _

theorem literalWidth_pos {bitwidth : Nat} (h : 0 < bitwidth) (n : Int) :
    0 < literalWidth bitwidth n :=
  Nat.lt_min.mpr ⟨Nat.succ_pos _, h⟩

/-- The bits of a literal are those of the integer, wrapped to the bitwidth. -/
theorem decode_encode_literalWidth (bitwidth : Nat) (n : Int) :
    decode (encode (literalWidth bitwidth n) n) = wrap bitwidth n := by
  rw [decode_eq_wrap (length_encode _ n) (unsigned_encode_modEq _ n)]
  exact wrap_eq_wrap (literalWidth_le bitwidth n) (inRange_literalWidth bitwidth n)

/-- A literal is the integer if its node holds, and else 0. -/
theorem denote_literal (bitwidth : Nat) (n : Int) (one : Node) (σ : Nat → Bool) :
    (literal bitwidth n one).denote σ = if one.eval σ then wrap bitwidth n else 0 := by
  rw [denote, literal, List.map_map]
  split
  next h =>
    -- every set bit is the node, and so it is set
    rw [← decode_encode_literalWidth]
    refine congrArg decode ((List.map_congr_left fun bit _ => ?_).trans (List.map_id _))
    cases bit
    · exact Node.eval_const σ false
    · exact h
  next h =>
    -- every bit is the node that does not hold, or false
    apply (decode_eq_zero _).mpr
    intro v hv
    obtain ⟨bit, -, rfl⟩ := List.mem_map.mp hv
    cases bit
    · exact Node.eval_const σ false
    · exact Bool.eq_false_iff.mpr h

@[simp] theorem length_literal (bitwidth : Nat) (n : Int) (one : Node) :
    (literal bitwidth n one).length = literalWidth bitwidth n := by
  rw [literal, List.length_map, length_encode]

end Bits

namespace Circuit

variable {c d : Circuit} {x : Word} {f g : (Nat → Bool) → Int}

/-- **A literal** is an integer, wrapped to the bitwidth, if its node holds, and else 0. -/
theorem denotes_literal (c : Circuit) (n : Int) {one : Node} (hone : c.Owns one) :
    c.Denotes (Bits.literal c.bitwidth n one) fun σ =>
      if one.eval σ then wrap c.bitwidth n else 0 := by
  refine ⟨?_, ?_, ?_, Bits.denote_literal c.bitwidth n one⟩
  · intro k hk
    obtain ⟨bit, -, rfl⟩ := List.mem_map.mp hk
    split
    · exact hone
    · exact c.owns_const false
  · rw [Bits.length_literal]
    exact Bits.literalWidth_pos c.bitwidth_pos n
  · rw [Bits.length_literal]
    exact Bits.literalWidth_le c.bitwidth n

/-- The word of a range of variables, unless it is refused. -/
theorem eq_of_wordVariable {start stop : Nat} (h : c.wordVariable start stop = .ok x) :
    x = ⟨c.id, (List.range' start (stop - start)).map .var⟩ := by
  rw [wordVariable] at h
  split at h
  · cases h
  · split at h
    · cases h
    · cases h
      rfl

/-- **The variables of a range** make an integer in two's complement. -/
theorem denotes_range {start stop : Nat} (hstart : 0 < start) (hstop : start < stop)
    (hle : stop - 1 ≤ c.numVariables) (hwidth : stop - start ≤ c.bitwidth) :
    c.Denotes ((List.range' start (stop - start)).map .var) fun σ =>
      decode ((List.range' start (stop - start)).map σ) := by
  have hlength : ((List.range' start (stop - start)).map Node.var).length = stop - start := by
    rw [List.length_map, List.length_range']
  refine ⟨?_, by omega, by omega, ?_⟩
  · intro n hn
    obtain ⟨v, hv, rfl⟩ := List.mem_map.mp hn
    rw [List.mem_range'_1] at hv
    exact ⟨by omega, by omega⟩
  · intro σ
    rw [Bits.denote, List.map_map]
    exact congrArg decode (List.map_congr_left fun v _ => Node.eval_var σ v)

end Circuit

end IntCircuit
