import IntCircuit.Bits.Shift
import IntCircuit.Proofs.Bits.Logic
import Mathlib.Data.Nat.Log

/-!
# Shifts multiply and divide

A stage that moves the bits multiplies or divides by a power of two, and the powers of all stages
that do so make the number that the lowest bits of the amount stand for. What leaves at the top is
lost up to a power of two; what comes in there is one bit, which may as well be taken to stand for
all bits above.

## Main definitions

* `Bits.distance`: by how much the first stages move the bits
* `Circuit.Fills`: bits that stand for an integer together with the bit that fills them up

## Main results

* `Bits.shiftStages_eq_clog`: how many bits of the amount are looked at
* `Bits.distance_eq`: the distance by the integer of the amount
* `Bits.ensures_shiftLeft`, `Bits.ensures_shiftRight`, `Bits.ensures_shiftRightSigned`
-/

namespace IntCircuit

/-! ## Lists of bits -/

/-- Dropping bits divides, rounding down. -/
theorem decode_drop (values : List Bool) (sign : Bool) (n : Nat) :
    decode (values.drop n ++ [sign]) = decode (values ++ [sign]) / 2 ^ n := by
  induction values generalizing n with
  | nil =>
    rw [List.drop_nil, List.nil_append, decode_singleton]
    have hpos : (0 : Int) < 2 ^ n := by positivity
    cases sign with
    | false => rw [bitValue_false, neg_zero, Int.zero_ediv]
    | true => rw [bitValue_true, Int.neg_one_ediv, Int.sign_eq_one_of_pos hpos]
  | cons bit rest ih =>
    cases n with
    | zero => rw [List.drop_zero, pow_zero, Int.ediv_one]
    | succ n =>
      -- the bit that is dropped first is less than the 2 that is divided by
      have hbit := bitValue_bounds bit
      have hcons : decode (bit :: (rest ++ [sign])) = bitValue bit + 2 * decode (rest ++ [sign]) :=
        decode_cons (by simp) bit
      have hhalf : decode (bit :: (rest ++ [sign])) / 2 = decode (rest ++ [sign]) := by omega
      rw [List.drop_succ_cons, ih, List.cons_append, pow_succ',
        ← Int.ediv_ediv_of_nonneg (by decide), hhalf]

/-- Bits that come in at the top are copies of the one above. -/
theorem decode_drop_append (values : List Bool) (sign : Bool) (n k : Nat) :
    decode (values.drop n ++ List.replicate k sign ++ [sign]) =
      decode (values ++ [sign]) / 2 ^ n := by
  rw [← decode_drop, ← decode_append_replicate (values.drop n) sign k, List.append_assoc,
    List.append_assoc, List.singleton_append, ← List.replicate_succ, List.replicate_succ']

/-- Zeros that come in below multiply. -/
theorem unsigned_replicate_append (values : List Bool) (n : Nat) :
    unsigned (List.replicate n false ++ values) = unsigned values * 2 ^ n := by
  rw [unsigned_append, unsigned_replicate_false, List.length_replicate, zero_add, mul_comm]

/-! ## The amount -/

namespace Bits

variable {c d : Circuit} {x amount : Bits} {m n : (Nat → Bool) → Int}

/-- **The number of stages** is the least that reaches all positions. -/
theorem shiftStages_eq_clog (bitwidth : Nat) : shiftStages bitwidth = Nat.clog 2 bitwidth := by
  unfold shiftStages
  split
  next h => rw [Nat.clog_of_right_le_one h]
  next h =>
    -- one more than the logarithm of the highest position, rounded down
    have hne : bitwidth - 1 ≠ 0 := by omega
    have hle : Nat.clog 2 bitwidth ≤ (bitwidth - 1).log2 + 1 := by
      rw [Nat.clog_le_iff_le_pow Nat.one_lt_two]
      have := Nat.lt_log2_self (n := bitwidth - 1)
      omega
    have hlt : (bitwidth - 1).log2 < Nat.clog 2 bitwidth := by
      rw [Nat.lt_clog_iff_pow_lt Nat.one_lt_two]
      have := Nat.log2_self_le hne
      omega
    omega

/-- By how much the first stages move the bits. -/
def distance (σ : Nat → Bool) (amount : Bits) : Nat → Nat
  | 0 => 0
  | stages + 1 => distance σ amount stages + if (amount.bit stages).eval σ then 2 ^ stages else 0

theorem distance_eq_unsigned (σ : Nat → Bool) (amount : Bits) (stages : Nat) :
    (distance σ amount stages : Int) =
      unsigned ((List.range stages).map fun i => (amount.bit i).eval σ) := by
  induction stages with
  | zero => rfl
  | succ stages ih =>
    rw [distance, List.range_succ, List.map_append, unsigned_append, ← ih, List.length_map,
      List.length_range, List.map_singleton, unsigned_cons, unsigned_nil]
    cases (amount.bit stages).eval σ <;> simp

/-- **The distance** is the integer of the amount, up to what the stages can tell apart. -/
theorem distance_eq (hamount : c.Denotes amount n) (σ : Nat → Bool) (stages : Nat) :
    distance σ amount stages = (n σ % 2 ^ stages).toNat := by
  let w := max stages amount.length
  have hextend := hamount.extend (Nat.le_max_right stages amount.length)
  -- the stages look at the lowest bits of the amount, extended if it is too short
  have htake : ((List.range stages).map fun i => (amount.bit i).eval σ) =
      ((amount.extend w).map (Node.eval σ)).take stages := by
    rw [extend_eq_map_bit (Nat.le_max_right _ _), List.map_map, ← List.map_take, List.take_range,
      Nat.min_eq_left (Nat.le_max_left _ _)]
    rfl
  have hmod : unsigned ((List.range stages).map fun i => (amount.bit i).eval σ) ≡ n σ
      [ZMOD 2 ^ stages] := by
    rw [htake]
    exact (unsigned_take_modEq _ _).trans
      ((hextend.modEq σ).of_dvd (pow_dvd_pow 2 (Nat.le_max_left _ _)))
  have hlt := unsigned_lt ((List.range stages).map fun i => (amount.bit i).eval σ)
  rw [List.length_map, List.length_range] at hlt
  rw [← Int.toNat_natCast (distance σ amount stages), distance_eq_unsigned, ← hmod.eq,
    Int.emod_eq_of_lt (unsigned_nonneg _) hlt]

end Bits

/-! ## Stages -/

/-- So many bits of the circuit which stand for this integer if `fill` is put for every bit after
them. -/
structure Circuit.Fills (d : Circuit) (fill : Node) (x : Bits) (width : Nat)
    (value : (Nat → Bool) → Int) : Prop where
  owns : ∀ n ∈ x, d.Owns n
  length : x.length = width
  denote : ∀ σ, decode (x.map (Node.eval σ) ++ [fill.eval σ]) = value σ

namespace Bits

open Build

variable {c d : Circuit} {x amount : Bits} {m n f : (Nat → Bool) → Int} {width : Nat}

/-- What moves, or else what stays. -/
theorem map_zip_ite (σ : Nat → Bool) (move : Node) {far near : List Node}
    (h : far.length = near.length) :
    ((far.zip near).map fun p => if move.eval σ then p.1.eval σ else p.2.eval σ) =
      if move.eval σ then far.map (Node.eval σ) else near.map (Node.eval σ) := by
  have hfar : ((far.zip near).map Prod.fst).map (Node.eval σ) = far.map (Node.eval σ) := by
    rw [List.map_fst_zip h.le]
  have hnear : ((far.zip near).map Prod.snd).map (Node.eval σ) = near.map (Node.eval σ) := by
    rw [List.map_snd_zip h.ge]
  rw [List.map_map] at hfar hnear
  cases move.eval σ
  · exact hnear
  · exact hfar

instance (distance : Nat) (move : Node) (x : Bits) : Grows (shiftLeftStage distance move x) := by
  rw [shiftLeftStage]
  infer_instance

instance (fill : Node) (distance : Nat) (move : Node) (x : Bits) :
    Grows (shiftRightStage fill distance move x) :=
  inferInstanceAs (Grows (List.mapM _ _))

instance (stage : Nat → Node → Bits → Build Bits) [∀ i move x, Grows (stage i move x)]
    (x amount : Bits) : Grows (shiftBy stage x amount) := by
  rw [shiftBy]
  exact .look (fun _ => inferInstance) fun _ _ h => by rw [h]

instance (x amount : Bits) : Grows (shiftLeft x amount) :=
  inferInstanceAs (Grows (shiftBy _ _ _))

instance (x amount : Bits) : Grows (shiftRight x amount) :=
  inferInstanceAs (Grows (shiftBy _ _ _))

instance (x amount : Bits) : Grows (shiftRightSigned x amount) :=
  inferInstanceAs (Grows (shiftBy _ _ _))

/-- What moves or stays at every position, by the value of one node. -/
theorem ensures_mapM_ite (hc : c.Sound) {move : Node} (hmove : c.Owns move)
    {pairs : List (Node × Node)} (hown : ∀ p ∈ pairs, c.Owns p.1 ∧ c.Owns p.2) :
    Ensures c (pairs.mapM fun (far, near) => Build.ite move far near) fun z d =>
      d.ReadsAll z fun σ => pairs.map fun p => if move.eval σ then p.1.eval σ else p.2.eval σ :=
  Ensures.mapM (fun σ p => if move.eval σ then p.1.eval σ else p.2.eval σ) hc fun p hp _ hcd hd =>
    Build.ensures_ite hd (hmove.mono hcd) ((hown p hp).1.mono hcd) ((hown p hp).2.mono hcd)

/-- A stage to higher positions multiplies by its distance. -/
theorem ensures_shiftLeftStage (hc : c.Sound) {move : Node} (hmove : c.Owns move)
    (hx : c.Counts x width f) (distance : Nat) :
    Ensures c (shiftLeftStage distance move x) fun z d => d.Counts z width fun σ =>
      if move.eval σ then f σ * 2 ^ distance else f σ := by
  let moved := (List.replicate distance (Node.const false) ++ x).take x.length
  have hmoved : ∀ n ∈ moved, c.Owns n := by
    intro n hn
    rcases List.mem_append.mp (List.mem_of_mem_take hn) with hn | hn
    · rw [List.eq_of_mem_replicate hn]
      exact c.owns_const false
    · exact hx.owns n hn
  have hlength : moved.length = x.length := by simp [moved]
  have hown : ∀ p ∈ (moved.zip x).reverse, c.Owns p.1 ∧ c.Owns p.2 := by
    intro p hp
    have hmem := List.of_mem_zip (List.mem_reverse.mp hp)
    exact ⟨hmoved _ hmem.1, hx.owns _ hmem.2⟩
  rw [shiftLeftStage]
  -- the highest position is made first
  refine (ensures_mapM_ite hc hmove hown).bind fun high d _ hd hhigh => .pure hd ⟨?_, ?_, ?_⟩
  · intro n hn
    exact hhigh.owns n (List.mem_reverse.mp hn)
  · rw [List.length_reverse, hhigh.length_eq fun _ => false, List.length_map, List.length_reverse,
      List.length_zip, hlength, Nat.min_self, hx.length]
  · intro σ
    rw [List.map_reverse, hhigh.eval, List.map_reverse, List.reverse_reverse,
      map_zip_ite σ move hlength]
    split
    · rw [List.map_take, List.map_append, List.map_replicate, Node.eval_const, hx.length]
      refine (unsigned_take_modEq _ _).trans ?_
      rw [unsigned_replicate_append]
      exact (hx.modEq σ).mul_right _
    · exact hx.modEq σ

/-- A stage to lower positions divides by its distance. -/
theorem ensures_shiftRightStage (hc : c.Sound) {fill move : Node} (hfill : c.Owns fill)
    (hmove : c.Owns move) (hx : c.Fills fill x width f) (distance : Nat) :
    Ensures c (shiftRightStage fill distance move x) fun z d => d.Fills fill z width fun σ =>
      if move.eval σ then f σ / 2 ^ distance else f σ := by
  let moved := x.drop distance ++ List.replicate (min distance x.length) fill
  have hmoved : ∀ n ∈ moved, c.Owns n := by
    intro n hn
    rcases List.mem_append.mp hn with hn | hn
    · exact hx.owns n (List.mem_of_mem_drop hn)
    · exact List.eq_of_mem_replicate hn ▸ hfill
  have hlength : moved.length = x.length := by
    rw [List.length_append, List.length_drop, List.length_replicate]
    omega
  have hown : ∀ p ∈ moved.zip x, c.Owns p.1 ∧ c.Owns p.2 := by
    intro p hp
    have hmem := List.of_mem_zip hp
    exact ⟨hmoved _ hmem.1, hx.owns _ hmem.2⟩
  rw [shiftRightStage]
  refine (ensures_mapM_ite hc hmove hown).mono fun z d _ _ hz => ⟨hz.owns, ?_, ?_⟩
  · rw [hz.length_eq fun _ => false, List.length_map, List.length_zip, hlength, Nat.min_self,
      hx.length]
  · intro σ
    rw [hz.eval, map_zip_ite σ move hlength]
    split
    · rw [List.map_append, List.map_drop, List.map_replicate, decode_drop_append, hx.denote]
    · exact hx.denote σ

/-! ## All stages -/

/-- **The stages together** move by the distance, if each of them moves by its own. -/
theorem ensures_shiftBy {stage : Nat → Node → Bits → Build Bits}
    [∀ i move x, Grows (stage i move x)] (hc : c.Sound)
    (inv : Circuit → Bits → ((Nat → Bool) → Int) → Prop) (shift : Nat → Int → Int)
    (hzero : ∀ k, shift 0 k = k) (hadd : ∀ i j k, shift (i + j) k = shift j (shift i k))
    (hamount : c.Denotes amount n) (hx : inv c (x.extend c.bitwidth) f)
    (hstage : ∀ d, c ≤ d → d.Sound → ∀ i move z g, d.Owns move → inv d z g →
      Ensures d (stage i move z) fun y e => inv e y fun σ =>
        if move.eval σ then shift i (g σ) else g σ) :
    Ensures c (shiftBy stage x amount) fun z d => inv d z fun σ =>
      shift (n σ % 2 ^ Nat.clog 2 c.bitwidth).toNat (f σ) := by
  have hdistance : (fun σ => shift (n σ % 2 ^ Nat.clog 2 c.bitwidth).toNat (f σ)) =
      fun σ => shift (distance σ amount (shiftStages c.bitwidth)) (f σ) :=
    funext fun σ => by rw [distance_eq hamount, shiftStages_eq_clog]
  rw [hdistance]
  refine .get_bind (Ensures.foldlM_range
    (fun i z d => inv d z fun σ => shift (distance σ amount i) (f σ)) hc ?_ ?_)
  · simpa only [distance, hzero] using hx
  · intro i z d _ hcd hd hz
    -- this stage adds its own distance to what the stages before it made
    have hmove := Circuit.owns_bit (fun n hn => (hamount.owns n hn).mono hcd) i
    have hstep := hstage d hcd hd (1 <<< i) (amount.bit i) z _ hmove hz
    refine hstep.mono fun y e _ _ hy => ?_
    have hvalue : (fun σ => shift (distance σ amount (i + 1)) (f σ)) = fun σ =>
        if (amount.bit i).eval σ then shift (1 <<< i) (shift (distance σ amount i) (f σ))
        else shift (distance σ amount i) (f σ) := by
      funext σ
      rw [distance, hadd, Nat.one_shiftLeft]
      split
      · rfl
      · rw [hzero]
    rwa [hvalue]

/-- **A left shift** multiplies by a power of two. -/
theorem ensures_shiftLeft (hc : c.Sound) (hx : c.Denotes x m) (hamount : c.Denotes amount n) :
    Ensures c (shiftLeft x amount) fun z d => d.Denotes z fun σ =>
      wrap d.bitwidth (m σ * 2 ^ (n σ % 2 ^ Nat.clog 2 d.bitwidth).toNat) := by
  refine (ensures_shiftBy hc (fun d z g => d.Counts z c.bitwidth g) (fun i k => k * 2 ^ i)
    (fun k => by rw [pow_zero, mul_one]) (fun i j k => by rw [pow_add, mul_assoc]) hamount
    (hx.extend hx.width_le) fun d _ hd i move z g hmove hz =>
      ensures_shiftLeftStage hd hmove hz i).mono fun z d hcd _ hz => ?_
  rw [← hcd.bitwidth] at hz
  exact hz.denotes d.bitwidth_pos (Nat.le_refl _) (.inl rfl)

/-- Bits that are filled up stand for the same integer on their own, up to a power of two. -/
theorem counts_of_fills {fill : Node} (hx : c.Fills fill x width f) : c.Counts x width f := by
  refine ⟨hx.owns, hx.length, fun σ => ?_⟩
  rw [← hx.denote σ, decode_append_singleton, List.length_map, hx.length]
  exact Int.modEq_iff_dvd.mpr ⟨-bitValue (fill.eval σ), by ring⟩

/-- Right shifts, with any bit that comes in. -/
theorem ensures_shiftRightBy (hc : c.Sound) {fill : Node} (hfill : c.Owns fill)
    (hx : c.Fills fill (x.extend c.bitwidth) c.bitwidth f) (hamount : c.Denotes amount n) :
    Ensures c (shiftBy (shiftRightStage fill) x amount) fun z d => d.Denotes z fun σ =>
      wrap d.bitwidth (f σ / 2 ^ (n σ % 2 ^ Nat.clog 2 d.bitwidth).toNat) := by
  have hpos (i : Nat) : (0 : Int) ≤ 2 ^ i := by positivity
  refine (ensures_shiftBy hc (fun d z g => d.Fills fill z c.bitwidth g) (fun i k => k / 2 ^ i)
    (fun k => by rw [pow_zero, Int.ediv_one])
    (fun i j k => by rw [pow_add, Int.ediv_ediv_of_nonneg (hpos i)]) hamount hx
    fun d hcd hd i move z g hmove hz =>
      ensures_shiftRightStage hd (hfill.mono hcd) hmove hz i).mono fun z d hcd _ hz => ?_
  rw [← hcd.bitwidth] at hz
  exact (counts_of_fills hz).denotes d.bitwidth_pos (Nat.le_refl _) (.inl rfl)

/-- **A right shift** divides what the bits are with positive weight by a power of two. -/
theorem ensures_shiftRight (hc : c.Sound) (hx : c.Denotes x m) (hamount : c.Denotes amount n) :
    Ensures c (shiftRight x amount) fun z d => d.Denotes z fun σ =>
      wrap d.bitwidth (m σ % 2 ^ d.bitwidth / 2 ^ (n σ % 2 ^ Nat.clog 2 d.bitwidth).toNat) := by
  have hextend := hx.extend hx.width_le
  have hfills : c.Fills (.const false) (x.extend c.bitwidth) c.bitwidth fun σ =>
      m σ % 2 ^ c.bitwidth := by
    refine ⟨hextend.owns, hextend.length, fun σ => ?_⟩
    have hlt := unsigned_lt ((x.extend c.bitwidth).map (Node.eval σ))
    rw [List.length_map, hextend.length] at hlt
    rw [Node.eval_const, decode_append_singleton, bitValue_false, mul_zero, sub_zero,
      ← (hextend.modEq σ).eq, Int.emod_eq_of_lt (unsigned_nonneg _) hlt]
  refine (ensures_shiftRightBy hc (c.owns_const false) hfills hamount).mono fun z d hcd _ hz => ?_
  rwa [← hcd.bitwidth] at hz

/-- **A signed right shift** divides by a power of two, rounding down. -/
theorem ensures_shiftRightSigned (hc : c.Sound) (hx : c.Denotes x m)
    (hamount : c.Denotes amount n) :
    Ensures c (shiftRightSigned x amount) fun z d => d.Denotes z fun σ =>
      wrap d.bitwidth (m σ / 2 ^ (n σ % 2 ^ Nat.clog 2 d.bitwidth).toNat) := by
  have hextend := hx.extend hx.width_le
  refine ensures_shiftRightBy hc (Circuit.owns_bit hx.owns _)
    ⟨hextend.owns, hextend.length, fun σ => ?_⟩ hamount
  -- one more copy of the sign changes nothing
  have hwider : x.extend (c.bitwidth + 1) = x.extend c.bitwidth ++ [x.sign] := by
    have hle := hx.width_le
    rw [extend_succ (Nat.le_succ_of_le hle), extend_eq_map_bit hle, bit_of_le (by omega)]
  have h := hx.decode_extend (c.bitwidth + 1) σ
  rwa [hwider, List.map_append, List.map_singleton] at h

end Bits

end IntCircuit
