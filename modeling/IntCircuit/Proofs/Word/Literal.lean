import IntCircuit.Proofs.Bits.Constant
import IntCircuit.Proofs.Bits.Logic
import IntCircuit.Proofs.Circuit.History
import IntCircuit.Proofs.Model
import IntCircuit.Proofs.Word.Basic
import Mathlib.Data.List.Induction

/-!
# Integers, their bits and back

A literal is made from the bits of an integer, and the value of a word of constants is the integer
that its bits make. The two undo each other up to the bitwidth: the bits of a word at all positions,
those past its end too, are the bits of its integer in two's complement. A value is added up in
machine integers, which are wide enough for it.

## Main definitions

* `decodeInt32`: the integer of a list of bits, added up in 64 bits and cut to 32

## Main results

* `testBit_decode`, `Bits.eval_bit`: a bit at any position
* `Word.value_eq_ok_iff`, `Word.exists_value_iff`: the words that have a value
* `toInt_decodeInt32`, `Bits.toInt_decodeInt32_extend`: neither the sum nor the cut loses anything
* `Circuit.literal_value`: literals, values and bits
-/

namespace IntCircuit

variable {values : List Bool} {x : Bits}

/-! ## Bits at any position -/

theorem testBit_signInt (sign : Bool) (i : Nat) : (signInt sign).testBit i = sign := by
  cases sign with
  | false => simp [signInt, Int.testBit]
  | true =>
    show (!Nat.testBit 0 i) = true
    rw [Nat.zero_testBit, Bool.not_false]

/-- **A bit of an integer** is the one at its position, and past the end the last one. -/
theorem testBit_decode (h : values ≠ []) (i : Nat) :
    (decode values).testBit i = values.getD (min i (values.length - 1)) false := by
  induction values generalizing i with
  | nil => exact absurd rfl h
  | cons bit rest ih =>
    by_cases hrest : rest = []
    · subst hrest
      rw [decode_singleton_eq_bit, List.length_singleton, Nat.sub_self, Nat.min_zero]
      cases i with
      | zero => exact Int.testBit_bit_zero bit _
      | succ i => exact (Int.testBit_bit_succ i bit _).trans (testBit_signInt bit i)
    · rw [decode_cons_eq_bit hrest, List.length_cons, Nat.add_sub_cancel]
      have hpos := List.length_pos_iff.mpr hrest
      cases i with
      | zero =>
        rw [Nat.zero_min]
        exact Int.testBit_bit_zero bit _
      | succ i =>
        have hmin : min (i + 1) rest.length = min i (rest.length - 1) + 1 := by omega
        rw [hmin, List.getD_cons_succ]
        exact (Int.testBit_bit_succ i bit _).trans (ih hrest i)

namespace Bits

theorem eval_bit (hx : x ≠ []) (σ : Nat → Bool) (i : Nat) :
    (x.bit i).eval σ = (x.denote σ).testBit i := by
  have hmap : x.map (Node.eval σ) ≠ [] := by simpa using hx
  rw [denote, testBit_decode hmap, List.length_map, bit, List.getD_eq_getElem?_getD,
    List.getD_eq_getElem?_getD, List.getElem?_map]
  cases x[min i (x.length - 1)]? with
  | none => exact Node.eval_const σ false
  | some n => rfl

/-! ## Constants -/

/-- A bit of constants is the bit of their integer. -/
theorem bit_eq_const (hne : x ≠ []) (hx : x.isConst = true) (σ : Nat → Bool) (i : Nat) :
    x.bit i = .const ((x.denote σ).testBit i) := by
  obtain ⟨value, hvalue⟩ := Node.eq_const_of_isConst (isConst_bit hx i)
  rw [← eval_bit hne σ i, hvalue, Node.eval_const]

end Bits

namespace Word

variable {x : Word} {v : Int}

theorem value_eq_ok_iff :
    x.value = .ok v ↔ ∃ values : List Bool, x.bits = values.map .const ∧ decode values = v := by
  rw [value]
  cases h : x.bits.constants? with
  | some values =>
    have hbits := Bits.constants?_eq_some.mp h
    constructor
    · intro hv
      exact ⟨values, hbits, Except.ok.inj hv⟩
    · rintro ⟨others, hothers, rfl⟩
      rw [Bits.constants?_eq_some.mpr hothers] at h
      rw [Option.some.inj h]
  | none =>
    constructor
    · intro hv
      cases hv
    · rintro ⟨values, hvalues, -⟩
      rw [Bits.constants?_eq_some.mpr hvalues] at h
      cases h

/-- **A value** is told exactly of constants. -/
theorem exists_value_iff : (∃ v, x.value = .ok v) ↔ x.isConst = true := by
  constructor
  · rintro ⟨v, hv⟩
    obtain ⟨values, hvalues, -⟩ := value_eq_ok_iff.mp hv
    rw [isConst, hvalues, Bits.isConst_iff, List.forall_mem_map]
    intro value _
    rfl
  · intro hx
    obtain ⟨values, hvalues⟩ := Bits.exists_constants? hx
    exact ⟨decode values, value_eq_ok_iff.mpr ⟨values, Bits.constants?_eq_some.mp hvalues, rfl⟩⟩

/-- The value is what the word stands for everywhere. -/
theorem denote_of_value (h : x.value = .ok v) (σ : Nat → Bool) : x.denote σ = v := by
  obtain ⟨values, hvalues, rfl⟩ := value_eq_ok_iff.mp h
  exact Bits.denote_of_constants σ (Bits.constants?_eq_some.mpr hvalues)

end Word

/-- **A model** answers with the value, whatever it keeps. -/
theorem Model.valueOfWord_of_value {x : Word} {v : Int} (h : x.value = .ok v) (m : Model) :
    ((valueOfWord x).run m).1 = v := by
  obtain ⟨values, hvalues, rfl⟩ := Word.value_eq_ok_iff.mp h
  have hbits : x.bits.mapM valueOf = pure values := by
    rw [hvalues, List.mapM_map]
    exact List.mapM_pure.trans (congrArg pure (List.map_id values))
  rw [valueOfWord, hbits]
  rfl

/-! ## Machine integers -/

/-- Adds the weight of a position if its bit is set; that of the last position is negative. -/
def addWeight (last : Nat) (sum : Int64) : Bool × Nat → Int64
  | (false, _) => sum
  | (true, i) => if i = last then sum - 1 <<< Int64.ofNat i else sum + 1 <<< Int64.ofNat i

/-- The integer of a list of bits, added up from the lowest in 64 bits and cut to 32 in the end. -/
def decodeInt32 (values : List Bool) : Int32 :=
  (values.zipIdx.foldl (addWeight (values.length - 1)) 0).toInt32

theorem one_shiftLeft (i : Nat) (hi : i < 64) :
    (1 : Int64) <<< Int64.ofNat i = Int64.ofInt (2 ^ i) := by
  have hall : ∀ i < 64, (1 : Int64) <<< Int64.ofNat i = Int64.ofInt (2 ^ i) := by decide +kernel
  exact hall i hi

/-- Below the last position the sum is the number of the bits. -/
theorem foldl_addWeight {last : Nat} (hlast : last < 64) (h : values.length ≤ last) :
    values.zipIdx.foldl (addWeight last) 0 = Int64.ofInt (unsigned values) := by
  induction values using List.reverseRecOn with
  | nil => rfl
  | append_singleton rest bit ih =>
    rw [List.length_append, List.length_singleton] at h
    rw [List.zipIdx_append, List.foldl_append, ih (by omega), unsigned_append]
    cases bit with
    | false => simp [addWeight]
    | true =>
      have hne : ¬rest.length = last := by omega
      simp [addWeight, hne, one_shiftLeft rest.length (by omega)]

/-- The sum is right up to the bits that are cut off. -/
theorem decodeInt32_eq_ofInt (h : values.length ≤ 64) :
    decodeInt32 values = Int32.ofInt (decode values) := by
  rcases List.eq_nil_or_concat values with rfl | ⟨rest, sign, rfl⟩
  · rfl
  · rw [List.concat_eq_append, List.length_append, List.length_singleton] at h
    rw [List.concat_eq_append, decodeInt32, decode_append_singleton, List.length_append,
      List.length_singleton, Nat.add_sub_cancel, List.zipIdx_append, List.foldl_append,
      foldl_addWeight h (Nat.le_refl _), ← Int64.toInt32_ofInt]
    cases sign with
    | false => simp [addWeight]
    | true => simp [addWeight, one_shiftLeft rest.length h]

/-- **Machine integers are wide enough**, for the sum and for what it is cut to. -/
theorem toInt_decodeInt32 (h : values.length ≤ 64) (hrange : InRange maxBitwidth (decode values)) :
    (decodeInt32 values).toInt = decode values := by
  rw [decodeInt32_eq_ofInt h, Int32.toInt_ofInt]
  exact wrap_of_inRange hrange

/-- The sign may be repeated as far as the sum reaches. -/
theorem Bits.toInt_decodeInt32_extend (hne : x ≠ []) (hle : x.length ≤ maxBitwidth)
    (σ : Nat → Bool) {width : Nat} (hwidth : width ≤ 64) :
    (decodeInt32 ((x.extend width).map (Node.eval σ))).toInt = x.denote σ := by
  have hdecode : decode ((x.extend width).map (Node.eval σ)) = x.denote σ :=
    denote_extend σ hne width
  have hrange : InRange maxBitwidth (x.denote σ) :=
    (inRange_decode _).mono (by rwa [List.length_map])
  rw [← hdecode] at hrange ⊢
  refine toInt_decodeInt32 ?_ hrange
  rw [List.length_map, length_extend]
  exact Nat.max_le.mpr ⟨hle.trans (by decide), hwidth⟩

/-! ## Literals -/

namespace Circuit

variable (c : Circuit) (n : Int) {x : Word} {v : Int}

theorem value_literal : (c.literal n).value = .ok (wrap c.bitwidth n) := by
  refine Word.value_eq_ok_iff.mpr ⟨_, ?_, Bits.decode_encode_literalWidth c.bitwidth n⟩
  refine List.map_congr_left fun bit _ => ?_
  cases bit <;> rfl

/-- A word of constants reads at every position as the literal of its value does. -/
theorem bit_literal_of_value (hpos : 0 < x.width) (hle : x.width ≤ c.bitwidth)
    (h : x.value = .ok v) (i : Nat) : (c.literal v).bit i = x.bit i := by
  let σ : Nat → Bool := fun _ => false
  have hrange : InRange c.bitwidth v := by
    rw [← Word.denote_of_value h σ]
    exact (inRange_decode (x.bits.map (Node.eval σ))).mono (by rwa [List.length_map])
  have hvalue := c.value_literal v
  rw [wrap_of_inRange hrange] at hvalue
  have hne : (c.literal v).bits ≠ [] := by
    apply List.ne_nil_of_length_pos
    rw [literal, literalIf, Bits.length_literal]
    exact Bits.literalWidth_pos c.bitwidth_pos v
  -- both are the bit of the one integer
  rw [Word.bit, Word.bit, Bits.bit_eq_const hne (Word.exists_value_iff.mp ⟨v, hvalue⟩) σ,
    Bits.bit_eq_const (List.ne_nil_of_length_pos hpos) (Word.exists_value_iff.mp ⟨v, h⟩) σ]
  have hdenote := (Word.denote_of_value hvalue σ).trans (Word.denote_of_value h σ).symm
  exact congrArg (fun m : Int => Node.const (m.testBit i)) hdenote

/-! ## The whole bitwidth -/

/-- The bits over the whole bitwidth are the stored ones and copies of the sign. -/
theorem fullBits_eq_extend (hle : x.width ≤ c.bitwidth) :
    c.fullBits x = x.bits.extend c.bitwidth :=
  (Bits.extend_eq_map_bit hle).symm

theorem length_fullBits : (c.fullBits x).length = c.bitwidth := by
  rw [fullBits, List.length_map, List.length_range]

/-- One of them is told for each position below the bitwidth, and no other. -/
theorem fullBit_eq (i : Nat) :
    c.fullBit x i = match (c.fullBits x)[i]? with
      | some bit => .ok bit
      | none => .error (.bitOutOfRange i c.bitwidth) := by
  rw [fullBit, fullBits, List.getElem?_map]
  split
  next hi => rw [List.getElem?_range hi, Option.map_some]
  next hi => rw [List.getElem?_eq_none (by simpa using hi), Option.map_none]

/-- **Integers become literals and words of constants become integers**, each undoing the other up
to the bitwidth. A literal is the integer, wrapped, or 0 by its node, and has the least width for
the integer that the bitwidth allows. A word has a value exactly if all of its bits are constants;
every model answers with it, and its literal has the same bits. Read over the whole bitwidth, a word
is its bits with the sign repeated, as many as the bitwidth says. What it stands for does not depend
on how far its sign is repeated, and is added up without a loss in 64 bits and in 32. -/
theorem literal_value (one : Node) (hpos : 0 < x.width) (hle : x.width ≤ c.bitwidth) :
    (c.literal n).value = .ok (wrap c.bitwidth n) ∧
    (∀ σ, (c.literalIf n one).denote σ = if one.eval σ then wrap c.bitwidth n else 0) ∧
    (∃ least, IsLeast {k | 0 < k ∧ -2 ^ (k - 1) ≤ n ∧ n < 2 ^ (k - 1)} least ∧
      (c.literalIf n one).width = min least c.bitwidth) ∧
    ((∃ v, x.value = .ok v) ↔ ∀ b ∈ x.bits, b.isConst = true) ∧
    (∀ v, x.value = .ok v → (∀ σ, x.denote σ = v) ∧
      (∀ m : Model, ((Model.valueOfWord x).run m).1 = v) ∧
      ∀ i, (c.literal v).bit i = x.bit i) ∧
    (c.fullBits x = x.bits.extend c.bitwidth ∧ (c.fullBits x).length = c.bitwidth ∧
      ∀ i, c.fullBit x i = match (c.fullBits x)[i]? with
        | some bit => .ok bit
        | none => .error (.bitOutOfRange i c.bitwidth)) ∧
    ∀ σ, (∀ width, (x.bits.extend width).denote σ = x.denote σ) ∧
      (c.fullBits x).denote σ = x.denote σ ∧
      (decodeInt32 (x.bits.map (Node.eval σ))).toInt = x.denote σ ∧
      ∀ width ≤ 64, (decodeInt32 ((x.bits.extend width).map (Node.eval σ))).toInt = x.denote σ := by
  have hne : x.bits ≠ [] := List.ne_nil_of_length_pos hpos
  have hmax : x.width ≤ maxBitwidth := hle.trans c.bitwidth_le
  have hextend (σ : Nat → Bool) (width : Nat) : (x.bits.extend width).denote σ = x.denote σ :=
    Bits.denote_extend σ hne width
  have hfull := c.fullBits_eq_extend hle
  refine ⟨c.value_literal n, Bits.denote_literal c.bitwidth n one, ?_,
    Word.exists_value_iff.trans Bits.isConst_iff, fun v hv => ⟨Word.denote_of_value hv,
      Model.valueOfWord_of_value hv, c.bit_literal_of_value hpos hle hv⟩,
    ⟨hfull, c.length_fullBits, c.fullBit_eq⟩, fun σ => ⟨hextend σ, ?_, ?_, fun width hwidth =>
      Bits.toInt_decodeInt32_extend hne hmax σ hwidth⟩⟩
  · obtain ⟨least, hleast, hwidth⟩ := Bits.exists_isLeast_literalWidth c.bitwidth n
    have hset : {k | 0 < k ∧ InRange k n} =
        {k | 0 < k ∧ -2 ^ (k - 1) ≤ n ∧ n < 2 ^ (k - 1)} :=
      Set.ext fun k => and_congr_right fun hk => inRange_iff hk
    rw [hset] at hleast
    exact ⟨least, hleast, (Bits.length_literal c.bitwidth n one).trans hwidth⟩
  · rw [hfull]
    exact hextend σ c.bitwidth
  · -- the stored bits are an extension too
    have hstored := Bits.toInt_decodeInt32_extend hne hmax σ (hmax.trans (by decide))
    rwa [Word.width, Bits.extend_length] at hstored

/-- In three bits the literal of 5 is -3. The word of two bits that are both true is -1, as the
literal of -1 is, which has one bit; so are the three bits of the bitwidth, of which there is no
fourth, and 64 of them. -/
theorem literal_value_at_five :
    ∃ c, create 0 1 ⟨3, true⟩ = .ok c ∧ (c.literal 5).value = .ok (-3) ∧
      (∀ σ, (c.literalIf 5 (.var 1)).denote σ = if σ 1 then -3 else 0) ∧
      (∀ i, (c.literal (-1)).bit i = (⟨0, [.const true, .const true]⟩ : Word).bit i) ∧
      c.fullBits ⟨0, [.const true, .const true]⟩ = List.replicate 3 (.const true) ∧
      c.fullBit ⟨0, [.const true, .const true]⟩ 3 = .error (.bitOutOfRange 3 3) ∧
      (decodeInt32 (List.replicate 64 true)).toInt = -1 := by
  let x : Word := ⟨0, [.const true, .const true]⟩
  obtain ⟨c, hc⟩ : ∃ c, create 0 1 ⟨3, true⟩ = .ok c := ⟨_, rfl⟩
  obtain ⟨-, -, (hbits : c.bitwidth = 3), -⟩ := create_eq_ok hc
  have hwidth : x.width ≤ c.bitwidth := by
    rw [hbits]
    decide
  obtain ⟨hvalue, hif, -, -, hback, ⟨hfull, -, hbit⟩, hsum⟩ :=
    c.literal_value 5 (.var 1) (x := x) (by decide) hwidth
  rw [hfull, hbits] at hbit
  rw [hbits] at hvalue hif hfull
  refine ⟨c, hc, hvalue, fun σ => ?_, (hback (-1) rfl).2.2, hfull, hbit 3, ?_⟩
  · rw [hif, Node.eval_var]
    rfl
  · exact (hsum fun _ => false).2.2.2 64 (Nat.le_refl 64)

end Circuit

end IntCircuit
