import IntCircuit.Proofs.Word.Outcome

/-!
# Arithmetic on words

Words of any widths, with any bits, are added, multiplied, divided, shifted and compared as the
integers that they stand for. Results are wrapped to the bitwidth and are exact if the operands are
narrow enough.
Quotients are rounded towards zero, and a quotient and a remainder agree with each other even if
the divisor is zero, although their circuits are built apart.

## Main definitions

* `IsQuotient`, `IsRemainder`: division with a quotient that is rounded towards zero

## Main results

* `Word.makes_sums`: sums, differences, opposites and absolute values
* `Word.makes_product`: products
* `Word.div_mod_agree`: quotients and remainders
* `Word.makes_shifts`: shifts by an amount of any width and sign
* `Relation.compares`: comparisons
-/

namespace IntCircuit

variable {w : Workspace} {c : Circuit} {x y : Word}

/-- A result that is wrapped to the bitwidth is exact if the integer fits the bitwidth. -/
theorem Work.Makes.exact {m : Work Word} {f : (Nat → Bool) → Int} {fits : Prop}
    (h : m.Makes w c fun σ n => n = wrap c.bitwidth (f σ))
    (hfits : fits → ∀ σ, InRange c.bitwidth (f σ)) :
    m.Makes w c fun σ n => n = wrap c.bitwidth (f σ) ∧ (fits → n = f σ) := by
  apply h.imp
  rintro σ n rfl
  exact ⟨rfl, fun hf => wrap_of_inRange (hfits hf σ)⟩

/-! ## Sums -/

/-- **Sums, differences, opposites and absolute values** are those of integers, wrapped to the
bitwidth. They are exact if all operands are narrower than the bitwidth; the opposite and the
absolute value of the least integer are the least integer again. -/
theorem Word.makes_sums (hw : w.Holds c) (hx : c.HasWord x) (hy : c.HasWord y) :
    ((add x y).Makes w c fun σ n => n = wrap c.bitwidth (x.denote σ + y.denote σ) ∧
      (max x.width y.width < c.bitwidth → n = x.denote σ + y.denote σ)) ∧
    ((sub x y).Makes w c fun σ n => n = wrap c.bitwidth (x.denote σ - y.denote σ) ∧
      (max x.width y.width < c.bitwidth → n = x.denote σ - y.denote σ)) ∧
    ((neg x).Makes w c fun σ n => n = wrap c.bitwidth (-x.denote σ) ∧
      (x.width < c.bitwidth → n = -x.denote σ) ∧
      (x.denote σ = -2 ^ (c.bitwidth - 1) → n = -2 ^ (c.bitwidth - 1))) ∧
    ((abs x).Makes w c fun σ n => n = wrap c.bitwidth |x.denote σ| ∧
      (x.width < c.bitwidth → n = |x.denote σ|) ∧
      (x.denote σ = -2 ^ (c.bitwidth - 1) → n = -2 ^ (c.bitwidth - 1))) := by
  -- a sum of two words needs one bit more than the wider one
  have hx' (σ : Nat → Bool) : InRange (max x.width y.width) (x.denote σ) :=
    (hx.inRange σ).mono (Nat.le_max_left _ _)
  have hy' (σ : Nat → Bool) : InRange (max x.width y.width) (y.denote σ) :=
    (hy.inRange σ).mono (Nat.le_max_right _ _)
  refine ⟨?_, ?_, ?_, ?_⟩
  · exact (BinaryOp.makes .add hw hx hy).exact fun hlt σ => ((hx' σ).add (hy' σ)).mono hlt
  · exact (BinaryOp.makes .sub hw hx hy).exact fun hlt σ => ((hx' σ).sub (hy' σ)).mono hlt
  · have hneg := (UnaryOp.makes .neg hw hx).exact fun hlt σ => (hx.inRange σ).neg.mono hlt
    refine hneg.imp fun σ n ⟨hn, hexact⟩ => ⟨hn, hexact, fun hleast => ?_⟩
    rw [hn, UnaryOp.onInt, hleast, wrap_neg_least c.bitwidth_pos]
  · have habs := (UnaryOp.makes .abs hw hx).exact fun hlt σ => (hx.inRange σ).abs.mono hlt
    refine habs.imp fun σ n ⟨hn, hexact⟩ => ⟨hn, hexact, fun hleast => ?_⟩
    have hneg : (-2 ^ (c.bitwidth - 1) : Int) < 0 := neg_neg_of_pos (by positivity)
    rw [hn, UnaryOp.onInt, hleast, abs_of_neg hneg, wrap_neg_least c.bitwidth_pos]

/-- The difference of a word of two variables and a word of one is exact in three bits. -/
theorem Word.makes_sums_on_three_variables :
    ∃ w₀ w₁ z, Runs (Work.create 3 ⟨3, true⟩) {} 0 w₀ ∧
      Runs (sub ⟨0, [.var 1, .var 2]⟩ ⟨0, [.var 3]⟩) w₀ z w₁ ∧
      ∀ σ, z.denote σ = decode [σ 1, σ 2] - decode [σ 3] := by
  let start : Workspace := ((Work.create 3 ⟨3, true⟩).run.run {}).2
  have hcreate : Runs (Work.create 3 ⟨3, true⟩) {} 0 start := rfl
  obtain ⟨c, hw, hid, (hbits : c.bitwidth = 3), hwords⟩ :=
    Work.holds_of_runs_create hcreate
  have hx : c.HasWord ⟨0, [.var 1, .var 2]⟩ := hwords 1 3 (by decide)
  have hy : c.HasWord ⟨0, [.var 3]⟩ := hwords 3 4 (by decide)
  obtain ⟨-, ⟨z, w₁, d, hsub, hz⟩, -⟩ := makes_sums hw hx hy
  have hl : d.maxLabel + 1 < labelModulus := hsub.maxLabel_lt (by rw [hid]; decide +kernel)
  refine ⟨start, w₁, z, hcreate, hsub.runs, fun σ => ((hz hl).2 σ).2 ?_⟩
  rw [hbits]
  decide

/-! ## Products -/

/-- **Products** are those of integers, wrapped to the bitwidth, and exact if the operands together
are no wider than the bitwidth. -/
theorem Word.makes_product (hw : w.Holds c) (hx : c.HasWord x) (hy : c.HasWord y) :
    (mul x y).Makes w c fun σ n => n = wrap c.bitwidth (x.denote σ * y.denote σ) ∧
      (x.width + y.width ≤ c.bitwidth → n = x.denote σ * y.denote σ) := by
  apply (BinaryOp.makes .mul hw hx hy).exact
  intro hle σ
  exact ((hx.inRange σ).mul (hy.inRange σ)).mono hle

/-- In one bit every product of -1 by -1 is -1 again. -/
theorem Word.makes_product_on_one_bit :
    ∃ w₀ w₁ z, Runs (Work.create 2 ⟨1, true⟩) {} 0 w₀ ∧
      Runs (mul ⟨0, [.var 1]⟩ ⟨0, [.var 2]⟩) w₀ z w₁ ∧
      ∀ σ, z.denote σ = if σ 1 && σ 2 then -1 else 0 := by
  let start : Workspace := ((Work.create 2 ⟨1, true⟩).run.run {}).2
  have hcreate : Runs (Work.create 2 ⟨1, true⟩) {} 0 start := rfl
  obtain ⟨c, hw, hid, (hbits : c.bitwidth = 1), hwords⟩ :=
    Work.holds_of_runs_create hcreate
  have hx : c.HasWord ⟨0, [.var 1]⟩ := hwords 1 2 (by decide)
  have hy : c.HasWord ⟨0, [.var 2]⟩ := hwords 2 3 (by decide)
  obtain ⟨z, w₁, d, hmul, hz⟩ := makes_product hw hx hy
  have hl : d.maxLabel + 1 < labelModulus := hmul.maxLabel_lt (by rw [hid]; decide +kernel)
  refine ⟨start, w₁, z, hcreate, hmul.runs, fun σ => ?_⟩
  rw [hbits] at hz
  apply ((hz hl).2 σ).1.trans
  change wrap 1 (decode [σ 1] * decode [σ 2]) = _
  cases σ 1 <;> cases σ 2 <;> decide

/-! ## Quotients -/

/-- The quotient `q` of `m` by `n` in so many bits, rounded towards zero. Only that of the least
integer by -1 has to be wrapped, and so it is the least integer again. -/
structure IsQuotient (b : Nat) (m n q : Int) : Prop where
  rounded : n ≠ 0 → q = wrap b (m.tdiv n)
  least : m = -2 ^ (b - 1) → n = -1 → q = m

/-- The remainder `r` that goes with a quotient of `m` by `n` that is rounded towards zero. It has
the sign of the dividend, and it is the dividend itself if the divisor is zero. -/
structure IsRemainder (m n r : Int) : Prop where
  eq : n ≠ 0 → r = m - n * m.tdiv n
  sign : n ≠ 0 → r = 0 ∨ r.sign = m.sign
  zero : n = 0 → r = m

theorem isQuotient_quotient {b : Nat} (hb : 0 < b) (m n : Int) :
    IsQuotient b m n (wrap b (quotient m n)) := by
  constructor
  · intro hn
    rw [quotient, if_neg hn]
  · rintro rfl rfl
    rw [quotient, if_neg (by decide), Int.tdiv_neg, Int.tdiv_one, wrap_neg_least hb]

theorem isRemainder_tmod (m n : Int) : IsRemainder m n (m.tmod n) := by
  refine ⟨fun _ => Int.tmod_def m n, fun _ => ?_, ?_⟩
  · have hsign := Int.sign_tmod m n
    split at hsign
    · exact .inl (Int.sign_eq_zero_iff_zero.mp hsign)
    · exact .inr hsign
  · rintro rfl
    exact Int.tmod_zero m

/-- The quotient times the divisor and the remainder make the dividend, for every divisor. -/
theorem quotient_mul_add_tmod (m n : Int) : quotient m n * n + m.tmod n = m := by
  rw [quotient]
  split
  next h => rw [h, mul_zero, zero_add, Int.tmod_zero]
  next h => rw [mul_comm, Int.mul_tdiv_add_tmod]

/-- **Quotients are rounded towards zero, and quotients and remainders agree.** The remainder of two
words may be made at any other moment than their quotient. Whatever the divisor, zero included, the
quotient times the divisor and the remainder make the dividend up to multiples of the modulus. -/
theorem Word.div_mod_agree (hw : w.Holds c) (hx : c.HasWord x) (hy : c.HasWord y) :
    ∃ q w₁ d, (div x y).Leads w c q w₁ d ∧
      (d.maxLabel + 1 < labelModulus → d.HasWord q ∧
        ∀ σ, IsQuotient c.bitwidth (x.denote σ) (y.denote σ) (q.denote σ)) ∧
      ∀ w' c', w'.Holds c' → c'.HasWord x → c'.HasWord y →
        ∃ r w₁' d', (mod x y).Leads w' c' r w₁' d' ∧
          (d'.maxLabel + 1 < labelModulus → d'.HasWord r ∧
            ∀ σ, IsRemainder (x.denote σ) (y.denote σ) (r.denote σ)) ∧
          (d.maxLabel + 1 < labelModulus → d'.maxLabel + 1 < labelModulus → ∀ σ,
            q.denote σ * y.denote σ + r.denote σ ≡ x.denote σ [ZMOD 2 ^ c.bitwidth]) := by
  obtain ⟨q, w₁, d, hdiv, hq⟩ := BinaryOp.makes .div hw hx hy
  refine ⟨q, w₁, d, hdiv, fun hl => ⟨(hq hl).1, fun σ => ?_⟩, fun w' c' hw' hx' hy' => ?_⟩
  · rw [(hq hl).2 σ]
    exact isQuotient_quotient c.bitwidth_pos _ _
  · obtain ⟨r, w₁', d', hmod, hr⟩ := BinaryOp.makes .mod hw' hx' hy'
    -- a remainder fits the bitwidth as its dividend does
    have hr' (hl : d'.maxLabel + 1 < labelModulus) (σ : Nat → Bool) :
        r.denote σ = (x.denote σ).tmod (y.denote σ) := by
      have hrange := (Circuit.Denotes.inRange hx'.owns σ).tmod (y.denote σ)
      exact ((hr hl).2 σ).trans (wrap_of_inRange hrange)
    refine ⟨r, w₁', d', hmod, fun hl => ⟨(hr hl).1, fun σ => ?_⟩, fun hl hl' σ => ?_⟩
    · rw [hr' hl σ]
      exact isRemainder_tmod _ _
    · calc q.denote σ * y.denote σ + r.denote σ
        _ = wrap c.bitwidth (quotient (x.denote σ) (y.denote σ)) * y.denote σ +
            (x.denote σ).tmod (y.denote σ) := by rw [(hq hl).2 σ, hr' hl' σ]; rfl
        _ ≡ quotient (x.denote σ) (y.denote σ) * y.denote σ +
            (x.denote σ).tmod (y.denote σ) [ZMOD 2 ^ c.bitwidth] :=
          ((wrap_modEq _ _).mul_right _).add_right _
        _ = x.denote σ := quotient_mul_add_tmod _ _

/-- The quotient of a word of two variables by a word of one, and then their remainder. -/
theorem Word.div_mod_agree_on_three_variables :
    ∃ w₀ w₁ w₂ q r, Runs (Work.create 3 ⟨2, true⟩) {} 0 w₀ ∧
      Runs (div ⟨0, [.var 1, .var 2]⟩ ⟨0, [.var 3]⟩) w₀ q w₁ ∧
      Runs (mod ⟨0, [.var 1, .var 2]⟩ ⟨0, [.var 3]⟩) w₁ r w₂ ∧
      ∀ σ, q.denote σ * decode [σ 3] + r.denote σ ≡ decode [σ 1, σ 2] [ZMOD 2 ^ 2] ∧
        (σ 3 = true → decode [σ 1, σ 2] = -2 → q.denote σ = -2 ∧ r.denote σ = 0) := by
  let start : Workspace := ((Work.create 3 ⟨2, true⟩).run.run {}).2
  have hcreate : Runs (Work.create 3 ⟨2, true⟩) {} 0 start := rfl
  obtain ⟨c, hw, hid, (hbits : c.bitwidth = 2), hwords⟩ :=
    Work.holds_of_runs_create hcreate
  have hx : c.HasWord ⟨0, [.var 1, .var 2]⟩ := hwords 1 3 (by decide)
  have hy : c.HasWord ⟨0, [.var 3]⟩ := hwords 3 4 (by decide)
  obtain ⟨q, w₁, d, hdiv, hq, hlater⟩ := div_mod_agree hw hx hy
  have hl : d.maxLabel + 1 < labelModulus := hdiv.maxLabel_lt (by rw [hid]; decide +kernel)
  obtain ⟨r, w₂, e, hmod, hr, hagree⟩ :=
    hlater w₁ d (hdiv.holds hw hl) (hx.mono hdiv.grown) (hy.mono hdiv.grown)
  have hl' : e.maxLabel + 1 < labelModulus := by
    apply hmod.maxLabel_lt
    rw [hdiv.grown.id, hid, hdiv.eq_run]
    decide +kernel
  rw [hbits] at hq hagree
  refine ⟨start, w₁, w₂, q, r, hcreate, hdiv.runs, hmod.runs, fun σ => ⟨hagree hl hl' σ, ?_⟩⟩
  intro h hleast
  have hone : Word.denote σ ⟨0, [.var 3]⟩ = -1 := by
    change decode [σ 3] = -1
    rw [h]
    rfl
  refine ⟨(((hq hl).2 σ).least hleast hone).trans hleast, ?_⟩
  rw [((hr hl').2 σ).eq (by rw [hone]; decide), hone, Int.tdiv_neg, Int.tdiv_one]
  ring

/-! ## Shifts -/

/-- What is moved past the bitwidth is lost. -/
theorem wrap_mul_two_pow_of_le {b s : Nat} (hle : b ≤ s) (m : Int) : wrap b (m * 2 ^ s) = 0 := by
  have hmod : m * 2 ^ s ≡ 0 [ZMOD 2 ^ b] :=
    (Int.modEq_zero_iff_dvd.mpr ((pow_dvd_pow 2 hle).mul_left m))
  rw [wrap_congr hmod, wrap, Int.zero_bmod]

/-- A number of so many bits has none left where that many positions are moved away. -/
theorem emod_ediv_two_pow_of_le {b s : Nat} (hle : b ≤ s) (m : Int) : m % 2 ^ b / 2 ^ s = 0 := by
  have hpos : (0 : Int) < 2 ^ b := by positivity
  have hpow : (2 : Int) ^ b ≤ 2 ^ s := pow_le_pow_right₀ (by decide) hle
  have hlt := Int.emod_lt_of_pos m hpos
  exact Int.ediv_eq_zero_of_lt (Int.emod_nonneg m (by omega)) (by omega)

/-- Only the sign is left of an integer that is moved by all its bits. -/
theorem InRange.ediv_two_pow_of_le {b s : Nat} {m : Int} (hm : InRange b m) (hle : b ≤ s) :
    m / 2 ^ s = if m < 0 then -1 else 0 := by
  have hpow : (2 : Int) ^ b ≤ 2 ^ s := pow_le_pow_right₀ (by decide) hle
  obtain ⟨hlow, hhigh⟩ := hm
  split
  next h => exact Int.ediv_eq_neg_one_of_neg_of_le h (by omega)
  next h => exact Int.ediv_eq_zero_of_lt (by omega) (by omega)

/-- An integer that is moved to lower positions fits where it has fitted. -/
theorem InRange.ediv_two_pow {b : Nat} {m : Int} (hm : InRange b m) (s : Nat) :
    InRange b (m / 2 ^ s) := by
  have hpos : (0 : Int) < 2 ^ s := by positivity
  obtain ⟨hlow, hhigh⟩ := hm
  -- the quotient lies between the integer and zero, or is -1
  rcases Int.lt_or_le m 0 with h | h
  · have hle : m ≤ m / 2 ^ s := by
      rw [Int.le_ediv_iff_mul_le hpos]
      nlinarith
    have hneg : m / 2 ^ s < 0 := Int.ediv_neg_of_neg_of_pos h hpos
    constructor <;> omega
  · have hle : m / 2 ^ s ≤ m := Int.ediv_le_self _ h
    have hnonneg : 0 ≤ m / 2 ^ s := Int.ediv_nonneg h hpos.le
    constructor <;> omega

/-- **Shifts** multiply and divide by a power of two, which is that of the amount up to the number
of positions that the stages tell apart; so the amount may be negative, and narrower or wider than
they need. The signed shift rounds down and is exact. A distance of the bitwidth or more, which
there is if the bitwidth is no power of two, leaves zero, or the sign. -/
theorem Word.makes_shifts (hw : w.Holds c) (hx : c.HasWord x) (hy : c.HasWord y) :
    ((shiftLeft x y).Makes w c fun σ n =>
      n = wrap c.bitwidth (x.denote σ * 2 ^ shiftDistance c.bitwidth (y.denote σ)) ∧
      (c.bitwidth ≤ shiftDistance c.bitwidth (y.denote σ) → n = 0)) ∧
    ((shiftRight x y).Makes w c fun σ n =>
      n = wrap c.bitwidth
        (x.denote σ % 2 ^ c.bitwidth / 2 ^ shiftDistance c.bitwidth (y.denote σ)) ∧
      (c.bitwidth ≤ shiftDistance c.bitwidth (y.denote σ) → n = 0)) ∧
    ((shiftRightSigned x y).Makes w c fun σ n =>
      n = x.denote σ / 2 ^ shiftDistance c.bitwidth (y.denote σ) ∧
      (c.bitwidth ≤ shiftDistance c.bitwidth (y.denote σ) →
        n = if x.denote σ < 0 then -1 else 0)) := by
  have hrange (σ : Nat → Bool) : InRange c.bitwidth (x.denote σ) :=
    Circuit.Denotes.inRange hx.owns σ
  refine ⟨?_, ?_, ?_⟩
  · apply (BinaryOp.makes .shiftLeft hw hx hy).imp
    rintro σ n rfl
    exact ⟨rfl, fun hle => wrap_mul_two_pow_of_le hle _⟩
  · apply (BinaryOp.makes .shiftRight hw hx hy).imp
    rintro σ n rfl
    refine ⟨rfl, fun hle => ?_⟩
    rw [BinaryOp.onInt, emod_ediv_two_pow_of_le hle, wrap, Int.zero_bmod]
  · apply (BinaryOp.makes .shiftRightSigned hw hx hy).imp
    rintro σ n rfl
    rw [BinaryOp.onInt, wrap_of_inRange ((hrange σ).ediv_two_pow _)]
    exact ⟨rfl, fun hle => (hrange σ).ediv_two_pow_of_le hle⟩

/-- In three bits an amount of one variable is 0 or -1, and -1 moves by three positions: all bits
but the sign are gone. -/
theorem Word.makes_shifts_on_four_variables :
    ∃ w₀ w₁ z, Runs (Work.create 4 ⟨3, true⟩) {} 0 w₀ ∧
      Runs (shiftRightSigned ⟨0, [.var 1, .var 2, .var 3]⟩ ⟨0, [.var 4]⟩) w₀ z w₁ ∧
      ∀ σ, z.denote σ =
        if σ 4 then (if σ 3 then -1 else 0) else decode [σ 1, σ 2, σ 3] := by
  let start : Workspace := ((Work.create 4 ⟨3, true⟩).run.run {}).2
  have hcreate : Runs (Work.create 4 ⟨3, true⟩) {} 0 start := rfl
  obtain ⟨c, hw, hid, (hbits : c.bitwidth = 3), hwords⟩ :=
    Work.holds_of_runs_create hcreate
  have hx : c.HasWord ⟨0, [.var 1, .var 2, .var 3]⟩ := hwords 1 4 (by decide)
  have hy : c.HasWord ⟨0, [.var 4]⟩ := hwords 4 5 (by decide)
  obtain ⟨-, -, z, w₁, d, hshift, hz⟩ := makes_shifts hw hx hy
  have hl : d.maxLabel + 1 < labelModulus := hshift.maxLabel_lt (by rw [hid]; decide +kernel)
  refine ⟨start, w₁, z, hcreate, hshift.runs, fun σ => ?_⟩
  rw [hbits] at hz
  obtain ⟨hvalue, -⟩ := (hz hl).2 σ
  change z.denote σ = decode [σ 1, σ 2, σ 3] / 2 ^ shiftDistance 3 (decode [σ 4]) at hvalue
  have hclog : Nat.clog 2 3 = 2 := by rw [← Bits.shiftStages_eq_clog]; rfl
  rw [hvalue, shiftDistance, hclog]
  cases σ 4 <;> cases σ 1 <;> cases σ 2 <;> cases σ 3 <;> decide

/-! ## Comparisons -/

/-- **Comparisons** are those of integers: under every assignment the node that is made for one is
true if and only if it holds of what the words stand for, also where bits that decide early have cut
its circuit short. -/
theorem Relation.compares (op : Relation) (hw : w.Holds c) (hx : c.HasWord x)
    (hy : c.HasWord y) :
    ∃ n w₁ d, (op.run x y).Leads w c n w₁ d ∧ (d.maxLabel + 1 < labelModulus →
      d.Reads n fun σ => op.holds (x.denote σ) (y.denote σ)) := by
  have hensures := op.ensures_run hx.owner hy.owner fun hc => ⟨hc, hx.owns, hy.owns⟩
  obtain ⟨n, w₁, d, hlead, -, hreads⟩ := hensures.leads hw
  exact ⟨n, w₁, d, hlead, hreads⟩

/-- A word of two variables is less than a word of one if and only if its integer is. -/
theorem Relation.compares_on_three_variables :
    ∃ w₀ w₁ n, Runs (Work.create 3 {}) {} 0 w₀ ∧
      Runs (Word.lt ⟨0, [.var 1, .var 2]⟩ ⟨0, [.var 3]⟩) w₀ n w₁ ∧
      ∀ σ, n.eval σ = decide (decode [σ 1, σ 2] < decode [σ 3]) := by
  let start : Workspace := ((Work.create 3 {}).run.run {}).2
  have hcreate : Runs (Work.create 3 {}) {} 0 start := rfl
  obtain ⟨c, hw, hid, -, hwords⟩ := Work.holds_of_runs_create hcreate
  have hx : c.HasWord ⟨0, [.var 1, .var 2]⟩ := hwords 1 3 (by decide)
  have hy : c.HasWord ⟨0, [.var 3]⟩ := hwords 3 4 (by decide)
  obtain ⟨n, w₁, d, hlt, hreads⟩ := Relation.compares .lt hw hx hy
  have hl : d.maxLabel + 1 < labelModulus := hlt.maxLabel_lt (by rw [hid]; decide +kernel)
  exact ⟨start, w₁, n, hcreate, hlt.runs, (hreads hl).eval⟩

end IntCircuit
