import IntCircuit.Bits.Denote
import Mathlib.Algebra.Order.Ring.Abs
import Mathlib.Data.Int.ModEq
import Mathlib.Tactic.Linarith
import Mathlib.Tactic.Ring

/-!
# Integers of truth values

A list of truth values, read with positive weights throughout, gives a number below a power of two.
Read in two's complement it gives the integer that is congruent to that number and lies around zero,
which is where `wrap` takes every integer.

## Main definitions

* `unsigned`: a list of truth values with positive weights
* `wrap`: the integer in two's complement range that is congruent to a given one
* `InRange`: the integers of a width in two's complement

## Main results

* `decode_modEq`, `inRange_decode`: what determines an integer in two's complement
* `decode_eq_wrap`: a congruence of the unsigned number settles the integer
* `wrap_eq_wrap`: in a width that holds an integer, wrapping to a wider one changes nothing
* `decode_lt_zero`, `decode_eq_zero`, `decode_inj`: sign, zero and equality
-/

namespace IntCircuit

/-- The weight of the lowest bit. -/
def bitValue (value : Bool) : Int :=
  if value then 1 else 0

@[simp] theorem bitValue_true : bitValue true = 1 := rfl

@[simp] theorem bitValue_false : bitValue false = 0 := rfl

theorem bitValue_bounds (value : Bool) : 0 ≤ bitValue value ∧ bitValue value ≤ 1 := by
  cases value <;> decide

/-- The number of a list of bits, the lowest first, all with positive weight. -/
def unsigned : List Bool → Int
  | [] => 0
  | bit :: rest => bitValue bit + 2 * unsigned rest

@[simp] theorem unsigned_nil : unsigned [] = 0 := rfl

@[simp] theorem unsigned_cons (bit : Bool) (rest : List Bool) :
    unsigned (bit :: rest) = bitValue bit + 2 * unsigned rest := rfl

theorem unsigned_nonneg (values : List Bool) : 0 ≤ unsigned values := by
  induction values with
  | nil => exact Int.le_refl 0
  | cons bit rest ih =>
    have := (bitValue_bounds bit).1
    rw [unsigned_cons]
    omega

theorem unsigned_lt (values : List Bool) : unsigned values < 2 ^ values.length := by
  induction values with
  | nil => decide
  | cons bit rest ih =>
    have := (bitValue_bounds bit).2
    rw [unsigned_cons, List.length_cons, pow_succ]
    omega

theorem unsigned_append (values others : List Bool) :
    unsigned (values ++ others) = unsigned values + 2 ^ values.length * unsigned others := by
  induction values with
  | nil => simp
  | cons bit rest ih =>
    rw [List.cons_append, unsigned_cons, unsigned_cons, ih, List.length_cons, pow_succ]
    ring

@[simp] theorem unsigned_replicate_false (n : Nat) : unsigned (List.replicate n false) = 0 := by
  induction n with
  | zero => rfl
  | succ n ih => rw [List.replicate_succ, unsigned_cons, ih]; rfl

theorem unsigned_replicate (n : Nat) (bit : Bool) :
    unsigned (List.replicate n bit) = bitValue bit * (2 ^ n - 1) := by
  induction n with
  | zero => simp
  | succ n ih =>
    rw [List.replicate_succ, unsigned_cons, ih, pow_succ]
    ring

/-- A complement is what is missing to all ones. -/
theorem unsigned_map_not {α : Type} (v : α → Bool) (items : List α) :
    unsigned (items.map fun a => !v a) = 2 ^ items.length - 1 - unsigned (items.map v) := by
  induction items with
  | nil => rfl
  | cons a rest ih =>
    rw [List.map_cons, List.map_cons, unsigned_cons, unsigned_cons, ih, List.length_cons, pow_succ]
    cases v a <;> simp only [Bool.not_true, Bool.not_false, bitValue_true, bitValue_false] <;> ring

/-- Bits with a carry that both are turned over by one more bit make a number or its opposite. -/
theorem unsigned_map_xor {α : Type} (bit : Bool) (v : α → Bool) (items : List α) :
    unsigned (items.map fun a => bit ^^ v a) + bitValue bit ≡
      (if bit then -unsigned (items.map v) else unsigned (items.map v))
      [ZMOD 2 ^ items.length] := by
  cases bit with
  | false => simp
  | true =>
    simp only [Bool.true_xor, bitValue_true, if_true]
    rw [unsigned_map_not]
    exact Int.modEq_iff_dvd.mpr ⟨-1, by ring⟩

/-- Bits that are let through by one more bit make a product with it. -/
theorem unsigned_map_and {α : Type} (bit : Bool) (v : α → Bool) (items : List α) :
    unsigned (items.map fun a => bit && v a) = bitValue bit * unsigned (items.map v) := by
  induction items with
  | nil => simp
  | cons a rest ih =>
    rw [List.map_cons, List.map_cons, unsigned_cons, unsigned_cons, ih]
    cases bit <;> simp

/-- The lowest bits are a number modulo a power of two. -/
theorem unsigned_take_modEq (n : Nat) (values : List Bool) :
    unsigned (values.take n) ≡ unsigned values [ZMOD 2 ^ n] := by
  by_cases h : n ≤ values.length
  · -- what is dropped has a weight that is a multiple
    have hsplit := unsigned_append (values.take n) (values.drop n)
    rw [List.take_append_drop, List.length_take, Nat.min_eq_left h] at hsplit
    rw [hsplit]
    exact (Int.modEq_iff_dvd.mpr ⟨unsigned (values.drop n), by ring⟩)
  · rw [List.take_of_length_le (by omega)]

theorem unsigned_inj {values others : List Bool} (hlength : values.length = others.length)
    (h : unsigned values = unsigned others) : values = others := by
  induction values generalizing others with
  | nil => exact (List.eq_nil_of_length_eq_zero hlength.symm).symm
  | cons bit rest ih =>
    cases others with
    | nil => cases hlength
    | cons other tail =>
      rw [unsigned_cons, unsigned_cons] at h
      -- twice a number is even, so the lowest bits agree
      have hbit : bit = other := by
        cases bit <;> cases other <;> simp only [bitValue_true, bitValue_false] at h <;>
          first | rfl | omega
      subst hbit
      rw [ih (by simpa using hlength) (by omega)]

/-! ## Two's complement -/

/-- The integers that a width in two's complement can hold. -/
def InRange (width : Nat) (n : Int) : Prop :=
  -(2 ^ width : Int) ≤ 2 * n ∧ 2 * n < 2 ^ width

/-- The integer of a width in two's complement that is congruent to a given one. -/
def wrap (width : Nat) (n : Int) : Int :=
  Int.bmod n (2 ^ width)

/-- The integers of a width by the weight of its sign. -/
theorem inRange_iff {width : Nat} (hpos : 0 < width) {n : Int} :
    InRange width n ↔ -2 ^ (width - 1) ≤ n ∧ n < 2 ^ (width - 1) := by
  obtain ⟨k, rfl⟩ := Nat.exists_eq_add_one_of_ne_zero hpos.ne'
  rw [InRange, pow_succ', Nat.add_sub_cancel]
  omega

theorem InRange.mono {width wider : Nat} {n : Int} (h : InRange width n) (hle : width ≤ wider) :
    InRange wider n := by
  have hpow : (2 : Int) ^ width ≤ 2 ^ wider := pow_le_pow_right₀ (by decide) hle
  exact ⟨by linarith [h.1], by linarith [h.2]⟩

theorem InRange.add {width : Nat} {m n : Int} (hm : InRange width m) (hn : InRange width n) :
    InRange (width + 1) (m + n) := by
  rw [InRange, pow_succ]
  exact ⟨by linarith [hm.1, hn.1], by linarith [hm.2, hn.2]⟩

theorem InRange.sub {width : Nat} {m n : Int} (hm : InRange width m) (hn : InRange width n) :
    InRange (width + 1) (m - n) := by
  rw [InRange, pow_succ]
  exact ⟨by linarith [hm.1, hn.2], by linarith [hm.2, hn.1]⟩

theorem InRange.neg {width : Nat} {n : Int} (hn : InRange width n) : InRange (width + 1) (-n) := by
  rw [InRange, pow_succ]
  exact ⟨by linarith [hn.1, hn.2], by linarith [hn.1, hn.2]⟩

theorem InRange.abs {width : Nat} {n : Int} (hn : InRange width n) : InRange (width + 1) |n| := by
  rcases abs_choice n with h | h
  · rw [h]
    exact hn.mono (Nat.le_succ width)
  · rw [h]
    exact hn.neg

/-- A remainder is no further from zero than the dividend, on the same side. -/
theorem InRange.tmod {width : Nat} {n : Int} (hn : InRange width n) (d : Int) :
    InRange width (n.tmod d) := by
  have habs := Int.natAbs_tmod n d
  have hle := Nat.mod_le n.natAbs d.natAbs
  obtain ⟨hlow, hhigh⟩ := hn
  rcases Int.le_total 0 n with h | h
  · have hnonneg := Int.tmod_nonneg d h
    constructor <;> omega
  · have hnonneg := Int.tmod_nonneg d (Int.neg_nonneg_of_nonpos h)
    rw [Int.neg_tmod] at hnonneg
    constructor <;> omega

/-- A product needs no more bits than its factors together. -/
theorem InRange.mul {width other : Nat} {m n : Int} (hm : InRange width m) (hn : InRange other n) :
    InRange (width + other) (m * n) := by
  -- by absolute values, of which those of a product are the product
  have hm' : |2 * m| ≤ 2 ^ width := abs_le.mpr ⟨hm.1, hm.2.le⟩
  have hn' : |2 * n| ≤ 2 ^ other := abs_le.mpr ⟨hn.1, hn.2.le⟩
  have hpos : (0 : Int) < 2 ^ (width + other) := by positivity
  have hprod : |2 * m * (2 * n)| ≤ 2 ^ (width + other) := by
    rw [abs_mul, pow_add]
    exact mul_le_mul hm' hn' (abs_nonneg _) (by positivity)
  have hbounds := abs_le.mp hprod
  have htwice : 2 * m * (2 * n) = 2 * (2 * (m * n)) := by ring
  rw [htwice] at hbounds
  rw [InRange]
  omega

theorem wrap_modEq (width : Nat) (n : Int) : wrap width n ≡ n [ZMOD 2 ^ width] := by
  have h : Int.bmod n (2 ^ width) % ((2 ^ width : Nat) : Int) = n % ((2 ^ width : Nat) : Int) :=
    Int.bmod_emod
  simpa [wrap, Int.ModEq] using h

theorem wrap_congr {width : Nat} {m n : Int} (h : m ≡ n [ZMOD 2 ^ width]) :
    wrap width m = wrap width n := by
  have hcast : ((2 ^ width : Nat) : Int) = 2 ^ width := by push_cast; rfl
  -- what is wrapped is the remainder by the modulus
  rw [wrap, wrap, ← Int.emod_bmod m, ← Int.emod_bmod n, hcast, h]

theorem wrap_of_inRange {width : Nat} {n : Int} (h : InRange width n) : wrap width n = n := by
  have hcast : ((2 ^ width : Nat) : Int) = 2 ^ width := by push_cast; rfl
  exact Int.bmod_eq_of_le_mul_two (by rw [hcast]; linarith [h.1]) (by rw [hcast]; linarith [h.2])

/-- The opposite of the least integer of a width wraps to the least integer again. -/
theorem wrap_neg_least {width : Nat} (hwidth : 0 < width) :
    wrap width (-(-2 ^ (width - 1))) = -2 ^ (width - 1) := by
  obtain ⟨w, rfl⟩ : ∃ w, width = w + 1 := ⟨width - 1, by omega⟩
  have hpos : (0 : Int) < 2 ^ w := by positivity
  rw [Nat.add_sub_cancel, neg_neg]
  have hleast : InRange (w + 1) (-2 ^ w) := by
    rw [InRange, pow_succ]
    constructor <;> linarith
  -- the two are one modulus apart
  have hmod : (2 : Int) ^ w ≡ -2 ^ w [ZMOD 2 ^ (w + 1)] :=
    (Int.modEq_iff_dvd.mpr ⟨-1, by ring⟩)
  rw [wrap_congr hmod, wrap_of_inRange hleast]

/-- An integer in the range of a width is the same there and in every wider one. -/
theorem wrap_eq_wrap {width wider : Nat} {n : Int} (hle : width ≤ wider)
    (h : width = wider ∨ InRange width n) : wrap width n = wrap wider n := by
  rcases h with rfl | h
  · rfl
  · rw [wrap_of_inRange h, wrap_of_inRange (h.mono hle)]

/-- A sign alone has negative weight. -/
theorem decode_singleton (sign : Bool) : decode [sign] = -bitValue sign := by
  cases sign <;> rfl

theorem decode_append_singleton (values : List Bool) (sign : Bool) :
    decode (values ++ [sign]) = unsigned values - 2 ^ values.length * bitValue sign := by
  induction values with
  | nil => cases sign <;> rfl
  | cons bit rest ih =>
    rw [List.cons_append, decode_cons (by simp), ih, unsigned_cons, List.length_cons, pow_succ]
    show bitValue bit + 2 * (unsigned rest - 2 ^ rest.length * bitValue sign) =
      bitValue bit + 2 * unsigned rest - 2 ^ rest.length * 2 * bitValue sign
    ring

/-- The integer of bits is congruent to their number. -/
theorem decode_modEq (values : List Bool) :
    decode values ≡ unsigned values [ZMOD 2 ^ values.length] := by
  rcases List.eq_nil_or_concat values with rfl | ⟨rest, sign, rfl⟩
  · rfl
  · -- moving the sign from one side to the other changes twice its weight
    rw [List.concat_eq_append, decode_append_singleton, unsigned_append, List.length_append]
    refine Int.modEq_iff_dvd.mpr ⟨bitValue sign, ?_⟩
    rw [unsigned_cons, unsigned_nil, List.length_singleton, pow_succ]
    ring

/-- The lowest bit and twice the integer of the others, up to a power of two. -/
theorem decode_cons_modEq (bit : Bool) (rest : List Bool) :
    decode (bit :: rest) ≡ bitValue bit + 2 * decode rest [ZMOD 2 ^ (rest.length + 1)] := by
  have h := decode_modEq (bit :: rest)
  rw [unsigned_cons, List.length_cons, pow_succ'] at h
  rw [pow_succ']
  exact h.trans ((decode_modEq rest).symm.mul_left'.add_left _)

theorem inRange_decode (values : List Bool) : InRange values.length (decode values) := by
  -- the bits below the sign make a number less than its weight
  rcases List.eq_nil_or_concat values with rfl | ⟨rest, sign, rfl⟩
  · exact ⟨by decide, by decide⟩
  · have hnonneg := unsigned_nonneg rest
    have hlt := unsigned_lt rest
    rw [List.concat_eq_append, decode_append_singleton, List.length_append, List.length_singleton,
      InRange, pow_succ]
    cases sign <;> simp only [bitValue_true, bitValue_false] <;> constructor <;> linarith

/-- **A congruence of the number settles the integer.** -/
theorem decode_eq_wrap {values : List Bool} {width : Nat} {n : Int}
    (hlength : values.length = width) (h : unsigned values ≡ n [ZMOD 2 ^ width]) :
    decode values = wrap width n := by
  subst hlength
  rw [← wrap_of_inRange (inRange_decode values)]
  exact wrap_congr ((decode_modEq values).trans h)

/-- The last bit is the sign. -/
theorem decode_lt_zero (values : List Bool) (sign : Bool) :
    decode (values ++ [sign]) < 0 ↔ sign = true := by
  have hnonneg := unsigned_nonneg values
  have hlt := unsigned_lt values
  rw [decode_append_singleton]
  cases sign with
  | false =>
    rw [bitValue_false, mul_zero, sub_zero]
    exact ⟨fun h => absurd h (not_lt.mpr hnonneg), fun h => (Bool.false_ne_true h).elim⟩
  | true =>
    rw [bitValue_true, mul_one]
    exact ⟨fun _ => rfl, fun _ => by linarith⟩

theorem decode_inj {values others : List Bool} (hlength : values.length = others.length)
    (h : decode values = decode others) : values = others := by
  refine unsigned_inj hlength ?_
  have hmod := (decode_modEq values).symm.trans (h ▸ hlength ▸ decode_modEq others)
  -- both numbers are below the modulus
  have hv := Int.emod_eq_of_lt (unsigned_nonneg values) (unsigned_lt values)
  have ho := Int.emod_eq_of_lt (unsigned_nonneg others) (unsigned_lt others)
  rw [← hlength] at ho
  rw [← hv, ← ho]
  exact hmod

theorem decode_replicate_false (n : Nat) : decode (List.replicate n false) = 0 := by
  have h : unsigned (List.replicate n false) ≡ 0 [ZMOD 2 ^ n] := by
    rw [unsigned_replicate_false]
  rw [decode_eq_wrap List.length_replicate h, wrap, Int.zero_bmod]

/-- Only bits that are all false stand for zero. -/
theorem decode_eq_zero (values : List Bool) : decode values = 0 ↔ ∀ v ∈ values, v = false := by
  constructor
  · intro h
    -- as many false bits stand for zero too, and there is one way only
    have hlength : values.length = (List.replicate values.length false).length := by simp
    have heq := decode_inj hlength (h.trans (decode_replicate_false _).symm)
    exact (List.eq_replicate_iff.mp heq).2
  · intro h
    rw [List.eq_replicate_iff.mpr ⟨rfl, h⟩, decode_replicate_false]

end IntCircuit
