import IntCircuit.Proofs.Bits.Decode

/-!
# Division without restoring

The rounds of a division on integers. Every round doubles the partial remainder and takes the
divisor, moved up by the bitwidth, off it or adds it, towards zero. So the partial remainder stays
between the moved divisor and its opposite; once it is zero it ends at the opposite, and if it never
is, only its sign can be wrong at the end. Division by zero needs no case of its own in the circuit
and has a result of its own.

## Main definitions

* `remainderAfter`, `quotientAfter`: the partial remainder, and the digits of the quotient
* `needsFix`, `fixesUp`, `quotientFix`: the correction at the end

## Main results

* `remainderAfter_eq`: what the rounds preserve
* `abs_remainderAfter_le`, `abs_remainderAfter_lt`: the partial remainder stays within bounds
* `quotient_modEq`: the quotient after the correction, also for a divisor that is zero
* `remainder_eq`: the remainder after the correction
-/

namespace IntCircuit

/-- Whether two integers are both negative or both not. -/
def sameSign (r d : Int) : Bool :=
  decide (r < 0) == decide (d < 0)

/-- The digit 1 or -1 that a bit stands for. -/
def digitValue (digit : Bool) : Int :=
  2 * bitValue digit - 1

/-- The partial remainder after so many rounds, with the divisor moved up by `b` positions. -/
def remainderAfter (b : Nat) (n d : Int) : Nat → Int
  | 0 => n
  | rounds + 1 =>
    let r := remainderAfter b n d rounds
    2 * r - digitValue (sameSign r d) * (2 ^ b * d)

/-- The digits of the quotient after so many rounds, read as bits. -/
def quotientAfter (b : Nat) (n d : Int) : Nat → Int
  | 0 => 0
  | rounds + 1 =>
    bitValue (sameSign (remainderAfter b n d rounds) d) + 2 * quotientAfter b n d rounds

variable (b : Nat) (n d : Int)

/-- **What the rounds preserve**: the digits with their values times the divisor, and the partial
remainder, make the dividend. -/
theorem remainderAfter_eq (rounds : Nat) :
    remainderAfter b n d rounds =
      2 ^ rounds * n - 2 ^ b * (d * (2 * quotientAfter b n d rounds - (2 ^ rounds - 1))) := by
  induction rounds with
  | zero => simp [remainderAfter, quotientAfter]
  | succ rounds ih =>
    rw [remainderAfter, quotientAfter, pow_succ]
    -- the digit may be either: the new remainder and the new digits go with it
    generalize sameSign (remainderAfter b n d rounds) d = digit
    rw [ih, digitValue]
    ring

/-- A round goes towards zero, whatever the sign of the divisor. -/
theorem remainderAfter_succ (rounds : Nat) :
    remainderAfter b n d (rounds + 1) =
      if remainderAfter b n d rounds < 0 then 2 * remainderAfter b n d rounds + 2 ^ b * |d|
      else 2 * remainderAfter b n d rounds - 2 ^ b * |d| := by
  rw [remainderAfter]
  generalize remainderAfter b n d rounds = r
  rw [sameSign, digitValue]
  by_cases hr : r < 0
  · by_cases hd : d < 0
    · simp [hr, hd, abs_of_neg hd]
      ring
    · simp [hr, hd, abs_of_nonneg (not_lt.mp hd)]
  · by_cases hd : d < 0
    · simp [hr, hd, abs_of_neg hd]
    · simp [hr, hd, abs_of_nonneg (not_lt.mp hd)]

variable {b n d}

/-- **The partial remainder stays within the moved divisor.** -/
theorem abs_remainderAfter_le (h : |n| ≤ 2 ^ b * |d|) (rounds : Nat) :
    |remainderAfter b n d rounds| ≤ 2 ^ b * |d| := by
  induction rounds with
  | zero => exact h
  | succ rounds ih =>
    have hbounds := abs_le.mp ih
    rw [remainderAfter_succ, abs_le]
    -- twice the remainder goes past one divisor at most, and a round takes one off
    split <;> constructor <;> linarith

/-- As long as no partial remainder is zero, it stays strictly within the moved divisor. -/
theorem abs_remainderAfter_lt (h : |n| < 2 ^ b * |d|) (rounds : Nat)
    (hne : ∀ i < rounds, remainderAfter b n d i ≠ 0) :
    |remainderAfter b n d rounds| < 2 ^ b * |d| := by
  induction rounds with
  | zero => exact h
  | succ rounds ih =>
    have hbounds := abs_lt.mp (ih fun i hi => hne i (Nat.lt_succ_of_lt hi))
    have hzero := hne rounds (Nat.lt_succ_self rounds)
    rw [remainderAfter_succ, abs_lt]
    split
    next hneg => constructor <;> linarith
    next hneg =>
      have hpos : 0 < remainderAfter b n d rounds := lt_of_le_of_ne (not_lt.mp hneg) hzero.symm
      constructor <;> linarith

/-- Once the partial remainder is zero, all later ones are the opposite of the moved divisor. -/
theorem remainderAfter_of_zero (hd : d ≠ 0) {i : Nat} (hzero : remainderAfter b n d i = 0)
    (rounds : Nat) : remainderAfter b n d (i + 1 + rounds) = -(2 ^ b * |d|) := by
  have hpos : 0 < 2 ^ b * |d| := by
    have := abs_pos.mpr hd
    positivity
  induction rounds with
  | zero => rw [Nat.add_zero, remainderAfter_succ, hzero, if_neg (lt_irrefl 0), mul_zero, zero_sub]
  | succ rounds ih =>
    rw [← Nat.add_assoc, remainderAfter_succ, ih, if_pos (by linarith)]
    ring

/-- With a divisor that is zero the rounds only double. -/
theorem remainderAfter_zero (rounds : Nat) : remainderAfter b n 0 rounds = 2 ^ rounds * n := by
  rw [remainderAfter_eq, zero_mul, mul_zero, sub_zero]

/-! ## The correction -/

/-- The quotient by the digits of all rounds. -/
def quotientDigits (b : Nat) (n d : Int) : Int :=
  2 * quotientAfter b n d b - (2 ^ b - 1)

/-- Whether the result of all rounds is off by one divisor: some partial remainder was zero, or the
last one has the wrong sign. -/
def needsFix (b : Nat) (n d : Int) : Bool :=
  decide (∃ i < b, remainderAfter b n d i = 0) ||
    ((decide (remainderAfter b n d b < 0) ^^ decide (n < 0)) &&
      decide (remainderAfter b n d b ≠ 0))

/-- Whether the quotient is to be increased. -/
def fixesUp (b : Nat) (n d : Int) : Bool :=
  sameSign (remainderAfter b n d b) d

/-- What is missing to the quotient. -/
def quotientFix (b : Nat) (n d : Int) : Int :=
  if needsFix b n d then if fixesUp b n d then 1 else -1 else 0

/-- The last partial remainder is what the digits leave of the dividend, moved up. -/
theorem remainderAfter_last :
    remainderAfter b n d b = 2 ^ b * (n - d * quotientDigits b n d) := by
  rw [remainderAfter_eq, quotientDigits]
  ring

theorem remainderAfter_last_neg :
    remainderAfter b n d b < 0 ↔ n - d * quotientDigits b n d < 0 := by
  have hpos : (0 : Int) < 2 ^ b := by positivity
  rw [remainderAfter_last]
  exact lt_iff_lt_of_le_iff_le (mul_nonneg_iff_of_pos_left hpos)

theorem remainderAfter_last_eq_zero :
    remainderAfter b n d b = 0 ↔ n - d * quotientDigits b n d = 0 := by
  have hpos : (2 : Int) ^ b ≠ 0 := by positivity
  rw [remainderAfter_last, mul_eq_zero, or_iff_right hpos]

/-- If some partial remainder was zero, so is the remainder after the correction. -/
theorem sub_mul_fix_of_zero (hd : d ≠ 0) (hzero : ∃ i < b, remainderAfter b n d i = 0) :
    n - d * (quotientDigits b n d + quotientFix b n d) = 0 := by
  obtain ⟨i, hi, hzero'⟩ := hzero
  -- from there on the remainder has been the opposite of the moved divisor
  have hlast := remainderAfter_of_zero hd hzero' (b - (i + 1))
  rw [Nat.add_sub_cancel' (show i + 1 ≤ b from hi), remainderAfter_last, ← mul_neg] at hlast
  have hrem : n - d * quotientDigits b n d = -|d| :=
    mul_left_cancel₀ (by positivity : (2 : Int) ^ b ≠ 0) hlast
  have hneg : remainderAfter b n d b < 0 := by
    rw [remainderAfter_last_neg, hrem]
    exact neg_neg_of_pos (abs_pos.mpr hd)
  have hneeds : needsFix b n d = true := by
    rw [needsFix, Bool.or_eq_true, decide_eq_true_iff]
    exact .inl ⟨i, hi, hzero'⟩
  rw [mul_add, ← sub_sub, hrem, quotientFix, hneeds, if_pos rfl, fixesUp, sameSign]
  by_cases h : d < 0
  · simp [hneg, h, abs_of_neg h]
  · simp [hneg, h, abs_of_nonneg (not_lt.mp h)]

/-- If no partial remainder was zero, the remainder after the correction has the sign of the
dividend and is less than the divisor. -/
theorem sub_mul_fix_of_ne_zero (hlt : |n| < 2 ^ b * |d|)
    (hne : ∀ i < b, remainderAfter b n d i ≠ 0) :
    |n - d * (quotientDigits b n d + quotientFix b n d)| < |d| ∧
      (0 ≤ n → 0 ≤ n - d * (quotientDigits b n d + quotientFix b n d)) ∧
      (n < 0 → n - d * (quotientDigits b n d + quotientFix b n d) ≤ 0) := by
  have hbound := abs_remainderAfter_lt hlt b hne
  rw [remainderAfter_last, abs_mul, abs_of_pos (by positivity : (0 : Int) < 2 ^ b)] at hbound
  have hrem : |n - d * quotientDigits b n d| < |d| :=
    lt_of_mul_lt_mul_left hbound (by positivity)
  have hnozero : ¬∃ i < b, remainderAfter b n d i = 0 := fun ⟨i, hi, hzero⟩ => hne i hi hzero
  rw [mul_add, ← sub_sub, quotientFix, needsFix, fixesUp, sameSign]
  simp only [hnozero, decide_false, Bool.false_or, ne_eq, remainderAfter_last_neg,
    remainderAfter_last_eq_zero]
  generalize n - d * quotientDigits b n d = r at hrem ⊢
  obtain ⟨hlower, hupper⟩ := abs_lt.mp hrem
  -- one divisor towards zero goes past it, but not beyond the divisor on the other side
  by_cases hr : r < 0
  · by_cases hn : n < 0
    · -- the signs agree and nothing is corrected
      simp [hr, hn, hrem, hr.le, not_le.mpr hn]
    · by_cases hd : d < 0
      · rw [abs_of_neg hd] at *
        simp [hr, hr.ne, hn, hd, abs_lt]
        omega
      · rw [abs_of_nonneg (not_lt.mp hd)] at *
        simp [hr, hr.ne, hn, hd, abs_lt]
        omega
  · by_cases hn : n < 0
    · by_cases hzero : r = 0
      · subst hzero
        simp [hn, abs_pos.mp hupper]
      · by_cases hd : d < 0
        · rw [abs_of_neg hd] at *
          simp [hr, hn, hd, hzero, abs_lt]
          omega
        · rw [abs_of_nonneg (not_lt.mp hd)] at *
          simp [hr, hn, hd, hzero, abs_lt]
          omega
    · simp [hr, hn, hrem, not_lt.mp hr]

/-- An integer in range is less than any divisor moved up by the bitwidth. -/
theorem InRange.abs_lt_mul (hn : InRange b n) (hd : d ≠ 0) : |n| < 2 ^ b * |d| := by
  have hpos : (0 : Int) < 2 ^ b := by positivity
  have hone : 1 ≤ |d| := Int.one_le_abs hd
  have hn' : |n| < 2 ^ b := by
    rw [abs_lt]
    exact ⟨by linarith [hn.1], by linarith [hn.2]⟩
  calc |n| < 2 ^ b * 1 := by rwa [mul_one]
    _ ≤ 2 ^ b * |d| := mul_le_mul_of_nonneg_left hone hpos.le

/-- **The result of the rounds after the correction** is the quotient rounded towards zero, and
what it leaves is the remainder. -/
theorem tdiv_tmod_eq (hn : InRange b n) (hd : d ≠ 0) :
    n.tdiv d = quotientDigits b n d + quotientFix b n d ∧
      n.tmod d = n - d * (quotientDigits b n d + quotientFix b n d) := by
  generalize hq : quotientDigits b n d + quotientFix b n d = q
  have habs : (d.natAbs : Int) = |d| := Int.natCast_natAbs d
  -- quotient and remainder are told by the size of the remainder and its sign
  by_cases hzero : ∃ i < b, remainderAfter b n d i = 0
  · have hrem := sub_mul_fix_of_zero hd hzero
    have hpos := abs_pos.mpr hd
    rw [hq] at hrem
    rcases le_total 0 n with h | h
    · exact (Int.tdiv_tmod_unique h hd).mpr ⟨by ring, by omega, by omega⟩
    · exact (Int.tdiv_tmod_unique' h hd).mpr ⟨by ring, by omega, by omega⟩
  · have hne : ∀ i < b, remainderAfter b n d i ≠ 0 := fun i hi h => hzero ⟨i, hi, h⟩
    obtain ⟨hlt, hnonneg, hneg⟩ := sub_mul_fix_of_ne_zero (hn.abs_lt_mul hd) hne
    rw [hq] at hlt hnonneg hneg
    obtain ⟨hlower, hupper⟩ := abs_lt.mp hlt
    rcases lt_or_ge n 0 with h | h
    · exact (Int.tdiv_tmod_unique' h.le hd).mpr ⟨by ring, by omega, hneg h⟩
    · exact (Int.tdiv_tmod_unique h hd).mpr ⟨by ring, hnonneg h, by omega⟩

/-! ## Division by zero -/

theorem quotientAfter_zero (rounds : Nat) :
    quotientAfter b n 0 rounds = if n < 0 then 0 else 2 ^ rounds - 1 := by
  induction rounds with
  | zero => simp [quotientAfter]
  | succ rounds ih =>
    have hpos : (0 : Int) < 2 ^ rounds := by positivity
    have hsign : 2 ^ rounds * n < 0 ↔ n < 0 :=
      lt_iff_lt_of_le_iff_le (mul_nonneg_iff_of_pos_left hpos)
    rw [quotientAfter, ih, remainderAfter_zero, sameSign, pow_succ]
    by_cases h : n < 0
    · simp [hsign, h]
    · simp [hsign, h]
      ring

theorem needsFix_zero (hb : 0 < b) : needsFix b n 0 = decide (n = 0) := by
  have hpos : (0 : Int) < 2 ^ b := by positivity
  have hsign : 2 ^ b * n < 0 ↔ n < 0 := lt_iff_lt_of_le_iff_le (mul_nonneg_iff_of_pos_left hpos)
  -- doubling makes no zero, so a zero must have been there before the first round
  have hexists : (∃ i < b, remainderAfter b n 0 i = 0) ↔ n = 0 := by
    simp only [remainderAfter_zero]
    constructor
    · rintro ⟨i, -, h⟩
      exact (mul_eq_zero.mp h).resolve_left (by positivity)
    · rintro rfl
      exact ⟨0, hb, mul_zero _⟩
  have hdecide : decide (∃ i < b, remainderAfter b n 0 i = 0) = decide (n = 0) :=
    decide_eq_decide.mpr hexists
  rw [needsFix, hdecide, remainderAfter_zero]
  simp [hsign]

/-- **Division by zero** gives the opposite of the dividend's sign. -/
theorem quotient_zero_modEq (hb : 0 < b) :
    quotientDigits b n 0 + quotientFix b n 0 ≡ -n.sign [ZMOD 2 ^ b] := by
  rw [quotientDigits, quotientAfter_zero, quotientFix, needsFix_zero hb]
  rcases lt_trichotomy n 0 with h | h | h
  · -- all digits are -1
    rw [Int.sign_eq_neg_one_of_neg h]
    simp only [h, h.ne, if_true, decide_false, Bool.false_eq_true, if_false]
    exact Int.modEq_iff_dvd.mpr ⟨1, by ring⟩
  · -- all digits are 1, and the correction adds one
    subst h
    have hup : fixesUp b 0 0 = true := by rw [fixesUp, remainderAfter_zero, mul_zero]; rfl
    simp only [lt_irrefl, if_false, decide_true, if_true, hup, Int.sign_zero, neg_zero]
    exact Int.modEq_iff_dvd.mpr ⟨-1, by ring⟩
  · -- all digits are 1
    rw [Int.sign_eq_one_of_pos h]
    simp only [h.not_gt, h.ne', if_false, decide_false, Bool.false_eq_true]
    exact Int.modEq_iff_dvd.mpr ⟨-1, by ring⟩

/-! ## Both results -/

/-- The quotient of two integers: it is rounded towards zero, and division by zero gives the
opposite of the dividend's sign. -/
def quotient (n d : Int) : Int :=
  if d = 0 then -n.sign else n.tdiv d

/-- **The quotient**, for any divisor. -/
theorem quotient_modEq (hb : 0 < b) (hn : InRange b n) :
    quotientDigits b n d + quotientFix b n d ≡ quotient n d [ZMOD 2 ^ b] := by
  unfold quotient
  split
  next h =>
    subst h
    exact quotient_zero_modEq hb
  next h => rw [(tdiv_tmod_eq hn h).1]

/-- **The remainder**, for any divisor. -/
theorem remainder_eq (hn : InRange b n) :
    n - d * (quotientDigits b n d + quotientFix b n d) = n.tmod d := by
  by_cases h : d = 0
  · subst h
    rw [zero_mul, sub_zero, Int.tmod_zero]
  · exact (tdiv_tmod_eq hn h).2.symm

/-- Partial remainders fit a register of twice the bitwidth and one bit. -/
theorem inRange_remainderAfter (hn : InRange b n) (hd : InRange b d) {rounds : Nat}
    (hle : rounds ≤ b) : InRange (2 * b + 1) (remainderAfter b n d rounds) := by
  have hpos : (0 : Int) < 2 ^ b := by positivity
  have hn' : |2 * n| ≤ 2 ^ b := abs_le.mpr ⟨hn.1, hn.2.le⟩
  have hd' : |2 * d| ≤ 2 ^ b := abs_le.mpr ⟨hd.1, hd.2.le⟩
  rw [abs_mul, abs_two] at hn' hd'
  have hbound : 2 * |remainderAfter b n d rounds| ≤ 2 ^ b * 2 ^ b := by
    by_cases h : d = 0
    · -- doubling at most `b` times moves the dividend up by `b` positions at most
      have hpow : (2 : Int) ^ rounds ≤ 2 ^ b := pow_le_pow_right₀ (by decide) hle
      rw [h, remainderAfter_zero, abs_mul, abs_of_pos (by positivity), mul_left_comm]
      exact mul_le_mul hpow hn' (by positivity) hpos.le
    · have hwithin := abs_remainderAfter_le (hn.abs_lt_mul h).le rounds
      calc 2 * |remainderAfter b n d rounds| ≤ 2 * (2 ^ b * |d|) :=
            mul_le_mul_of_nonneg_left hwithin (by decide)
        _ = 2 ^ b * (2 * |d|) := by ring
        _ ≤ 2 ^ b * 2 ^ b := mul_le_mul_of_nonneg_left hd' hpos.le
  have hsquare : (0 : Int) < 2 ^ b * 2 ^ b := by positivity
  have hpow : (2 : Int) ^ (2 * b + 1) = 2 * (2 ^ b * 2 ^ b) := by ring
  have habs := abs_le.mp (show |remainderAfter b n d rounds| ≤ _ from le_refl _)
  rw [InRange, hpow]
  constructor <;> linarith [habs.1, habs.2]

end IntCircuit
