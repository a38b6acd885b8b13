import IntCircuit.Proofs.Checked.Logic
import IntCircuit.Proofs.Word.Literal

/-!
# Literals and values, checked

A literal is made of a machine integer. Its width is told by the zeros that lead its magnitude, of
which there are at most 32, and its bits are told by moving the integer down by less than 32. The
way back counts the bits, and takes one for the sign.

## Main definitions

* `Checked.literalWidth`, `Checked.literal`: a machine integer as bits
* `Checked.decodeInt32`: bits as a machine integer

## Main results

* `Checked.literalWidth_eq`, `Checked.follows_literal`: literals
* `Checked.decodeInt32_eq`: values
-/

namespace IntCircuit

theorem encode_eq_map (width : Nat) (n : Int) :
    encode width n = (List.range width).map fun i => n / 2 ^ i % 2 == 1 := by
  induction width generalizing n with
  | zero => rfl
  | succ width ih =>
    rw [encode, ih, List.range_succ_eq_map, List.map_cons, List.map_map, pow_zero, Int.ediv_one]
    refine congrArg _ (List.map_congr_left fun i _ => ?_)
    simp only [Function.comp_apply, pow_succ', Int.ediv_ediv_of_nonneg (show (0 : Int) ≤ 2 by simp)]

namespace Checked

variable {m : Type → Type} [Monad m] [LawfulMonad m] {b : Nat}

/-! ## Machine integers -/

/-- What is left of an integer without its sign: the integer, or its complement below zero. -/
def magnitude (n : BitVec 32) : BitVec 32 :=
  if n.slt 0 then ~~~n else n

/-- The least width in which a machine integer has a sign of its own, at most `bitwidth`. -/
def literalWidth (bitwidth : Nat) (n : BitVec 32) : ExceptT Breach m Nat :=
  if n = 0 then pure 1 else do
    let width ← minus 33 (magnitude n).clz.toNat
    return min width bitwidth

/-- A bit of a machine integer, which can be moved down by less than its width. -/
def machineBit (n : BitVec 32) (i : Nat) : ExceptT Breach m Bool := do
  require (i < 32)
  return n.sshiftRight i &&& 1 != 0

/-- The integer `n` if `one` holds and 0 otherwise. -/
def literal (n : BitVec 32) (one : Node) : Checked Bits := do
  let c ← get
  let width ← literalWidth c.bitwidth n
  let bits ← (List.range width).mapM fun i => do
    return if ← machineBit n i then one else .const false
  finish bits

theorem toNat_magnitude (n : BitVec 32) :
    (magnitude n).toNat = (if n.toInt < 0 then -n.toInt - 1 else n.toInt).toNat := by
  have hlt : n.slt 0 = true ↔ n.toInt < 0 := by simp [BitVec.slt]
  rw [magnitude]
  by_cases h : n.toInt < 0
  · rw [if_pos (hlt.mpr h), if_pos h, BitVec.toNat_not]
    rw [BitVec.toInt_eq_toNat_cond] at h ⊢
    split at h <;> omega
  · rw [if_neg (mt hlt.mp h), if_neg h]
    rw [BitVec.toInt_eq_toNat_cond] at h ⊢
    split at h <;> omega

/-- Behind its leading zeros, a number has as many bits as its logarithm says. -/
theorem clz_add_size (n : BitVec 32) :
    n.clz.toNat + (if n.toNat = 0 then 0 else n.toNat.log2 + 1) = 32 := by
  by_cases h : n = 0
  · subst h
    decide
  · have hne : n.toNat ≠ 0 := fun hzero => h (BitVec.eq_of_toNat_eq hzero)
    have hclz : n.clz.toNat < 32 := by
      have hlt := BitVec.clz_lt_iff_ne_zero.mpr h
      rwa [BitVec.lt_def] at hlt
    have hle := BitVec.two_pow_sub_clz_le_toNat_of_ne_zero (by decide) h
    have hlt := BitVec.toNat_lt_two_pow_sub_clz (x := n)
    have hlog : n.toNat.log2 = 32 - 1 - n.clz.toNat := by
      rw [Nat.log2_eq_iff hne]
      exact ⟨hle, by rwa [show 32 - 1 - n.clz.toNat + 1 = 32 - n.clz.toNat by omega]⟩
    rw [if_neg hne, hlog]
    omega

/-- **The width of a literal** is found without a breach. -/
theorem literalWidth_eq {bitwidth : Nat} (hpos : 0 < bitwidth) (n : BitVec 32) :
    (literalWidth bitwidth n : ExceptT Breach m Nat) =
      pure (Bits.literalWidth bitwidth n.toInt) := by
  have hsize := clz_add_size (magnitude n)
  rw [literalWidth, Bits.literalWidth, ← toNat_magnitude]
  split
  next h =>
    subst h
    exact congrArg pure (Nat.min_eq_left hpos).symm
  next h =>
    rw [minus_of_le (by omega), pure_bind]
    congr 2
    omega

theorem machineBit_eq (n : BitVec 32) {i : Nat} (hi : i < 32) :
    (machineBit n i : ExceptT Breach m Bool) = pure (n.toInt / 2 ^ i % 2 == 1) := by
  have hshift : n.toInt / 2 ^ i = (n.sshiftRight i).toInt := by
    rw [BitVec.toInt_sshiftRight, Int.shiftRight_eq_div_pow]
    norm_cast
  have hlow (k : BitVec 32) : (k &&& 1 != 0) = (k.toInt % 2 == 1) := by
    have hand : k &&& 1 = BitVec.ofNat 32 (k.toNat % 2) := by
      apply BitVec.eq_of_toNat_eq
      simp
      omega
    have hmod : k.toInt % 2 = (k.toNat % 2 : Nat) := by
      rw [BitVec.toInt_eq_toNat_cond]
      split <;> omega
    rw [hand, hmod]
    rcases Nat.mod_two_eq_zero_or_one k.toNat with h | h <;> simp [h]
  rw [machineBit, require_of hi, pure_bind, hshift, hlow]

/-- **A literal** is made without a breach, and no gate is made for it. -/
theorem follows_literal (n : BitVec 32) (one : Node) :
    Follows b (literal n one) (pure (Bits.literal b n.toInt one))
      (Made (Bits.literalWidth b n.toInt)) := by
  refine .look fun c hc => ?_
  have hpos : 0 < b := hc ▸ c.bitwidth_pos
  have hle := Bits.literalWidth_le b n.toInt
  have hmax : b ≤ maxBitwidth := hc ▸ c.bitwidth_le
  rw [hc, literalWidth_eq hpos, pure_bind]
  refine Follows.finish ?_ (Bits.literalWidth_pos hpos _) hle
  have hplain : (pure (Bits.literal b n.toInt one) : Build Bits) =
      (List.range (Bits.literalWidth b n.toInt)).mapM fun i =>
        pure (if n.toInt / 2 ^ i % 2 == 1 then one else .const false) := by
    rw [List.mapM_pure, Bits.literal, encode_eq_map, List.map_map]
    rfl
  rw [hplain]
  refine (Follows.mapM fun i hi => ?_).mono fun z _ hz => ⟨hz.eq, hz.length.trans List.length_range⟩
  have hi' : i < maxBitwidth :=
    (List.mem_range.mp hi).trans_le (hle.trans hmax)
  rw [machineBit_eq n hi', pure_bind]
  exact .pure rfl

/-! ## Values -/

/-- The integer of a list of bits, added up from the lowest; the last one is the sign. -/
def decodeInt32 (values : List Bool) : ExceptT Breach m Int32 := do
  let last ← minus values.length 1
  return (values.zipIdx.foldl (addWeight last) 0).toInt32

theorem decodeInt32_eq {values : List Bool} (h : 0 < values.length) :
    (decodeInt32 values : ExceptT Breach m Int32) = pure (IntCircuit.decodeInt32 values) := by
  rw [decodeInt32, minus_of_le h, pure_bind, IntCircuit.decodeInt32]

end Checked

end IntCircuit
