import IntCircuit.Bits.Logic
import IntCircuit.Proofs.Bits.Denotes
import Mathlib.Data.Int.Bitwise

/-!
# Bitwise operations compute what they do on integers

Two's complement makes an operation on every position the operation of the same name on integers,
whose last bit is the one that is repeated forever.

## Main definitions

* `Connective.onInt`: a connective on the bits of two integers

## Main results

* `decode_zipWith`: a function of two bits, on all positions
* `Bits.ensures_not`, `Bits.ensures_and`, `Bits.ensures_or`, `Bits.ensures_xor`
* `Bits.ensures_choose`: one of two integers
* `Bits.ensures_joinAll`: a connective over any number of integers
-/

namespace IntCircuit

/-! ## Lists of bits -/

theorem decode_cons_eq_bit {rest : List Bool} (h : rest ≠ []) (bit : Bool) :
    decode (bit :: rest) = Int.bit bit (decode rest) := by
  rw [decode_cons h, Int.bit_val]
  cases bit <;> simp [add_comm]

/-- The integer whose bits all are the sign. -/
def signInt (sign : Bool) : Int :=
  if sign then -1 else 0

/-- The last bit stands for all bits after it. -/
theorem decode_singleton_eq_bit (sign : Bool) : decode [sign] = Int.bit sign (signInt sign) := by
  cases sign <;> rfl

theorem natBitwise_zero (f : Bool → Bool → Bool) :
    Int.natBitwise f 0 0 = signInt (f false false) := by
  unfold Int.natBitwise signInt
  cases f false false <;> simp

theorem bitwise_signInt (f : Bool → Bool → Bool) (sign other : Bool) :
    Int.bitwise f (signInt sign) (signInt other) = signInt (f sign other) := by
  cases sign <;> cases other
  · exact natBitwise_zero f
  · exact natBitwise_zero fun x y => f x !y
  · exact natBitwise_zero fun x y => f (!x) y
  · exact natBitwise_zero fun x y => f (!x) !y

/-- **A function of two bits on all positions** is that function on the bits of two integers. -/
theorem decode_zipWith (f : Bool → Bool → Bool) {values others : List Bool} (h : values ≠ [])
    (hlength : values.length = others.length) :
    decode (List.zipWith f values others) = Int.bitwise f (decode values) (decode others) := by
  induction values generalizing others with
  | nil => exact absurd rfl h
  | cons bit rest ih =>
    cases others with
    | nil => cases hlength
    | cons other tail =>
      have htail : rest.length = tail.length := by simpa using hlength
      rw [List.zipWith_cons_cons]
      by_cases hrest : rest = []
      · -- at the last position it is the operation on the signs
        obtain rfl : tail = [] := List.eq_nil_of_length_eq_zero (by rw [← htail, hrest]; rfl)
        rw [hrest, List.zipWith_nil_left, decode_singleton_eq_bit, decode_singleton_eq_bit,
          decode_singleton_eq_bit, Int.bitwise_bit, bitwise_signInt]
      · -- below it is the operation on one bit of either integer
        have hzip : List.zipWith f rest tail ≠ [] := by
          intro hnil
          rcases List.zipWith_eq_nil_iff.mp hnil with hnil | hnil
          · exact hrest hnil
          · rw [hnil] at htail
            exact hrest (List.eq_nil_of_length_eq_zero htail)
        have htail' : tail ≠ [] := by
          rintro rfl
          exact hrest (List.eq_nil_of_length_eq_zero htail)
        rw [decode_cons_eq_bit hzip, decode_cons_eq_bit hrest, decode_cons_eq_bit htail',
          Int.bitwise_bit, ih hrest htail]

theorem decode_map_not {α : Type} (v : α → Bool) {items : List α} (h : items ≠ []) :
    decode (items.map fun a => !v a) = Int.lnot (decode (items.map v)) := by
  induction items with
  | nil => exact absurd rfl h
  | cons a rest ih =>
    by_cases hrest : rest = []
    · rw [hrest, List.map_singleton, List.map_singleton]
      cases v a <;> rfl
    · rw [List.map_cons, List.map_cons, decode_cons_eq_bit (by simpa using hrest),
        decode_cons_eq_bit (by simpa using hrest), ih hrest, Int.lnot_bit]

namespace Connective

/-- A connective on the bits of two integers. -/
def onInt : Connective → Int → Int → Int
  | and => Int.land
  | or => Int.lor

theorem bitwise_join (op : Connective) : Int.bitwise (fun a b => op.join [a, b]) = op.onInt := by
  cases op with
  | and => simpa [join, onInt] using Int.bitwise_and
  | or => simpa [join, onInt] using Int.bitwise_or

theorem join_cons_cons (op : Connective) (v w : Bool) (values : List Bool) :
    op.join (v :: w :: values) = op.join (op.join [v, w] :: values) := by
  cases op <;> simp [join, Bool.and_assoc, Bool.or_assoc]

@[simp] theorem join_singleton (op : Connective) (v : Bool) : op.join [v] = v := by
  cases op <;> simp [join]

end Connective

/-! ## Circuits -/

namespace Circuit

variable {d : Circuit} {x : Bits} {values : (Nat → Bool) → List Bool}

/-- Nodes with given values stand for the integer of these values. -/
theorem ReadsAll.denotes (h : d.ReadsAll x values) (hpos : 0 < x.length)
    (hle : x.length ≤ d.bitwidth) : d.Denotes x fun σ => decode (values σ) :=
  ⟨h.owns, hpos, hle, fun σ => congrArg decode (h.eval σ)⟩

theorem ReadsAll.length_eq (h : d.ReadsAll x values) (σ : Nat → Bool) :
    x.length = (values σ).length := by
  rw [← h.eval σ, List.length_map]

end Circuit

namespace Bits

open Build

variable {c : Circuit} {x y : Bits} {m n : (Nat → Bool) → Int}

instance (gate : Node → Node → Build Node) [∀ a b, Grows (gate a b)] (x y : Bits) :
    Grows (zipWith gate x y) :=
  inferInstanceAs (Grows (List.mapM _ _))

instance (x : Bits) : Grows (not x) := inferInstanceAs (Grows (List.mapM _ _))

instance (x y : Bits) : Grows (and x y) := inferInstanceAs (Grows (zipWith _ _ _))

instance (x y : Bits) : Grows (or x y) := inferInstanceAs (Grows (zipWith _ _ _))

instance (x y : Bits) : Grows (xor x y) := inferInstanceAs (Grows (zipWith _ _ _))

instance (condition : Node) (x y : Bits) : Grows (choose condition x y) :=
  inferInstanceAs (Grows (zipWith _ _ _))

/-- The values of two integers at the width of the wider one. -/
def aligned (σ : Nat → Bool) (x y : Bits) : List Bool × List Bool :=
  ((x.extend (maxWidth x y)).map (Node.eval σ), (y.extend (maxWidth x y)).map (Node.eval σ))

theorem length_aligned_fst (σ : Nat → Bool) (x y : Bits) :
    (aligned σ x y).1.length = maxWidth x y :=
  (List.length_map _).trans (length_extend_of_le (Nat.le_max_left _ _))

theorem length_aligned_snd (σ : Nat → Bool) (x y : Bits) :
    (aligned σ x y).2.length = maxWidth x y :=
  (List.length_map _).trans (length_extend_of_le (Nat.le_max_right _ _))

theorem decode_aligned_fst (hx : c.Denotes x m) (y : Bits) (σ : Nat → Bool) :
    decode (aligned σ x y).1 = m σ :=
  hx.decode_extend _ σ

theorem decode_aligned_snd (hy : c.Denotes y n) (x : Bits) (σ : Nat → Bool) :
    decode (aligned σ x y).2 = n σ :=
  hy.decode_extend _ σ

theorem map_align {α : Type} (f : Bool → Bool → α) (σ : Nat → Bool) (x y : Bits) :
    ((align (maxWidth x y) x y).map fun p => f (p.1.eval σ) (p.2.eval σ)) =
      List.zipWith f (aligned σ x y).1 (aligned σ x y).2 := by
  simp [align, aligned, List.zip, List.map_zipWith, List.zipWith_map]

theorem owns_align (hx : ∀ n ∈ x, c.Owns n) (hy : ∀ n ∈ y, c.Owns n) (width : Nat) :
    ∀ p ∈ align width x y, c.Owns p.1 ∧ c.Owns p.2 := fun _ hp =>
  have hmem := List.of_mem_zip hp
  ⟨Circuit.owns_extend hx width _ hmem.1, Circuit.owns_extend hy width _ hmem.2⟩

/-- A gate at every position. -/
theorem ensures_zipWith (hc : c.Sound) (hx : c.Denotes x m) (hy : c.Denotes y n)
    {gate : Node → Node → Build Node} [∀ a b, Grows (gate a b)]
    {f : (Nat → Bool) → Bool → Bool → Bool}
    (hgate : ∀ a b d, c ≤ d → d.Sound → d.Owns a → d.Owns b →
      Ensures d (gate a b) fun r e => e.Reads r fun σ => f σ (a.eval σ) (b.eval σ)) :
    Ensures c (zipWith gate x y) fun z d => d.Denotes z fun σ =>
      decode (List.zipWith (f σ) (aligned σ x y).1 (aligned σ x y).2) := by
  have hown := owns_align hx.owns hy.owns (maxWidth x y)
  refine (Ensures.mapM (fun σ p => f σ (p.1.eval σ) (p.2.eval σ)) hc
    fun p hp d hcd hd => hgate p.1 p.2 d hcd hd ((hown p hp).1.mono hcd)
      ((hown p hp).2.mono hcd)).mono fun z d hcd _ hz => ?_
  have hlength : z.length = maxWidth x y := by
    rw [hz.length_eq fun _ => false, map_align, List.length_zipWith, length_aligned_fst,
      length_aligned_snd, Nat.min_self]
  have hpos := hx.width_pos
  have hxle := hx.width_le
  have hyle := hy.width_le
  refine (hz.denotes ?_ ?_).congr fun σ => by rw [map_align]
  · rw [hlength, maxWidth]
    omega
  · rw [hlength, maxWidth, hcd.bitwidth]
    omega

/-- A gate at every position, for a function of two bits. -/
theorem ensures_zipWith_bitwise (hc : c.Sound) (hx : c.Denotes x m) (hy : c.Denotes y n)
    {gate : Node → Node → Build Node} [∀ a b, Grows (gate a b)] (f : Bool → Bool → Bool)
    (hgate : ∀ a b d, c ≤ d → d.Sound → d.Owns a → d.Owns b →
      Ensures d (gate a b) fun r e => e.Reads r fun σ => f (a.eval σ) (b.eval σ)) :
    Ensures c (zipWith gate x y) fun z d => d.Denotes z fun σ => Int.bitwise f (m σ) (n σ) := by
  refine (ensures_zipWith (f := fun _ => f) hc hx hy hgate).mono
    fun z d _ _ hz => hz.congr fun σ => ?_
  have hne : (aligned σ x y).1 ≠ [] := by
    have hpos := hx.width_pos
    refine List.ne_nil_of_length_pos ?_
    rw [length_aligned_fst, maxWidth]
    omega
  rw [decode_zipWith f hne (by rw [length_aligned_fst, length_aligned_snd]),
    decode_aligned_fst hx, decode_aligned_snd hy]

theorem ensures_and (hc : c.Sound) (hx : c.Denotes x m) (hy : c.Denotes y n) :
    Ensures c (and x y) fun z d => d.Denotes z fun σ => Int.land (m σ) (n σ) := by
  rw [← Int.bitwise_and]
  exact ensures_zipWith_bitwise hc hx hy _ fun _ _ _ _ hd ha hb => Build.ensures_and hd ha hb

theorem ensures_or (hc : c.Sound) (hx : c.Denotes x m) (hy : c.Denotes y n) :
    Ensures c (or x y) fun z d => d.Denotes z fun σ => Int.lor (m σ) (n σ) := by
  rw [← Int.bitwise_or]
  exact ensures_zipWith_bitwise hc hx hy _ fun _ _ _ _ hd ha hb => Build.ensures_or hd ha hb

theorem ensures_xor (hc : c.Sound) (hx : c.Denotes x m) (hy : c.Denotes y n) :
    Ensures c (xor x y) fun z d => d.Denotes z fun σ => Int.xor (m σ) (n σ) := by
  rw [← Int.bitwise_xor]
  exact ensures_zipWith_bitwise hc hx hy _ fun _ _ _ _ hd ha hb => Build.ensures_xor hd ha hb

theorem ensures_not (hc : c.Sound) (hx : c.Denotes x m) :
    Ensures c (not x) fun z d => d.Denotes z fun σ => Int.lnot (m σ) := by
  refine (Ensures.mapM (fun σ n => !n.eval σ) hc fun n hn d hcd hd =>
    Build.ensures_not hd ((hx.owns n hn).mono hcd)).mono fun z d hcd _ hz => ?_
  have hlength : z.length = x.length := by
    rw [hz.length_eq fun _ => false, List.length_map]
  refine (hz.denotes (hlength ▸ hx.width_pos) ?_).congr ?_
  · rw [hlength, hcd.bitwidth]
    exact hx.width_le
  · intro σ
    rw [decode_map_not _ hx.ne_nil]
    exact congrArg Int.lnot (hx.denote σ)

/-- **One of two integers**, by the value of the condition. -/
theorem ensures_choose (hc : c.Sound) {condition : Node} (hcond : c.Owns condition)
    (hx : c.Denotes x m) (hy : c.Denotes y n) :
    Ensures c (choose condition x y) fun z d => d.Denotes z fun σ =>
      if condition.eval σ then m σ else n σ := by
  refine (ensures_zipWith (f := fun σ a b => if condition.eval σ then a else b) hc hx hy
    fun a b d hcd hd ha hb => Build.ensures_ite hd (hcond.mono hcd) ha hb).mono
    fun z d _ _ hz => hz.congr fun σ => ?_
  have hlength : (aligned σ x y).1.length = (aligned σ x y).2.length := by
    rw [length_aligned_fst, length_aligned_snd]
  cases condition.eval σ with
  | true =>
    have hzip : List.zipWith (fun a _ => a) (aligned σ x y).1 (aligned σ x y).2 =
        (aligned σ x y).1 :=
      (List.map_zipWith (f := Prod.fst) (g := Prod.mk)).symm.trans (List.map_fst_zip hlength.le)
    simpa [hzip] using decode_aligned_fst hx y σ
  | false =>
    have hzip : List.zipWith (fun _ b => b) (aligned σ x y).1 (aligned σ x y).2 =
        (aligned σ x y).2 :=
      (List.map_zipWith (f := Prod.snd) (g := Prod.mk)).symm.trans (List.map_snd_zip hlength.ge)
    simpa [hzip] using decode_aligned_snd hy x σ

/-- A connective at every position of an integer and all others, one of them after another. -/
theorem decode_map_join (op : Connective) (σ : Nat → Bool) {width : Nat} (hpos : 0 < width)
    {others : List Bits} (h : ∀ y ∈ others, y ≠ [] ∧ y.length ≤ width) (v : Nat → Bool) :
    decode ((List.range width).map fun i =>
        op.join (v i :: others.map fun y => (y.bit i).eval σ)) =
      (others.map (denote σ)).foldl op.onInt (decode ((List.range width).map v)) := by
  induction others generalizing v with
  | nil => simp only [List.map_nil, Connective.join_singleton, List.foldl_nil]
  | cons y rest ih =>
    obtain ⟨hy, hle⟩ := h y List.mem_cons_self
    -- the first two inputs of every position make one, which the rest joins
    have hstep : decode ((List.range width).map fun i => op.join [v i, (y.bit i).eval σ]) =
        op.onInt (decode ((List.range width).map v)) (y.denote σ) := by
      have hne : (List.range width).map v ≠ [] := by
        refine List.ne_nil_of_length_pos ?_
        rwa [List.length_map, List.length_range]
      have hlength : ((List.range width).map v).length =
          ((List.range width).map fun i => (y.bit i).eval σ).length := by
        rw [List.length_map, List.length_map]
      have hzip := decode_zipWith (fun a b => op.join [a, b]) hne hlength
      rw [List.zipWith_map, List.zipWith_self, op.bitwise_join] at hzip
      rw [hzip, ← denote_extend σ hy width, denote, extend_eq_map_bit hle, List.map_map]
      rfl
    simp only [List.map_cons, List.foldl_cons]
    rw [← hstep, ← ih fun k hk => h k (List.mem_cons_of_mem y hk)]
    refine congrArg decode (List.map_congr_left fun i _ => ?_)
    exact op.join_cons_cons _ _ _

theorem foldl_max_length (others : List Bits) (width : Nat) :
    width ≤ others.foldl (fun width other => max width other.length) width ∧
      ∀ y ∈ others, y.length ≤ others.foldl (fun width other => max width other.length) width := by
  induction others generalizing width with
  | nil => exact ⟨Nat.le_refl width, fun _ h => (List.not_mem_nil h).elim⟩
  | cons y rest ih =>
    obtain ⟨hfirst, hrest⟩ := ih (max width y.length)
    rw [List.foldl_cons]
    refine ⟨Nat.le_trans (Nat.le_max_left _ _) hfirst, fun z hz => ?_⟩
    rcases List.mem_cons.mp hz with rfl | hz
    · exact Nat.le_trans (Nat.le_max_right _ _) hfirst
    · exact hrest z hz

theorem foldl_max_length_le {others : List Bits} {width limit : Nat} (hwidth : width ≤ limit)
    (h : ∀ y ∈ others, y.length ≤ limit) :
    others.foldl (fun width other => max width other.length) width ≤ limit := by
  induction others generalizing width with
  | nil => exact hwidth
  | cons y rest ih =>
    exact ih (Nat.max_le.mpr ⟨hwidth, h y List.mem_cons_self⟩)
      fun z hz => h z (List.mem_cons_of_mem y hz)

instance (op : Connective) (x : Bits) (others : List Bits) : Grows (joinAll op x others) :=
  inferInstanceAs (Grows (List.mapM _ _))

/-- **A connective over any number of integers.** -/
theorem ensures_joinAll (hc : c.Sound) (op : Connective) (hx : c.Denotes x m) {others : List Bits}
    (hothers : ∀ y ∈ others, c.Denotes y fun σ => y.denote σ) :
    Ensures c (joinAll op x others) fun z d => d.Denotes z fun σ =>
      (others.map (denote σ)).foldl op.onInt (m σ) := by
  let width := others.foldl (fun width other => max width other.length) x.length
  obtain ⟨hxwidth, hwidth⟩ := foldl_max_length others x.length
  have hle : width ≤ c.bitwidth :=
    foldl_max_length_le hx.width_le fun y hy => (hothers y hy).width_le
  have hpos : 0 < width := Nat.lt_of_lt_of_le hx.width_pos hxwidth
  -- what is joined at a position are the bits of all integers there
  let values (σ : Nat → Bool) (i : Nat) : List Bool :=
    (x.bit i).eval σ :: others.map fun y => (y.bit i).eval σ
  have hposition : ∀ i ∈ List.range width, ∀ d, c ≤ d → d.Sound →
      Ensures d (accumulate (((Junction.empty op).add (x.bit i)).addUntilDecided
        (others.map fun y => y.bit i))) fun r e => e.Reads r fun σ => op.join (values σ i) := by
    intro i _ d hcd hd
    have hfirst := Circuit.owns_bit (fun n hn => (hx.owns n hn).mono hcd) i
    have hrest : ∀ n ∈ others.map fun other => other.bit i, d.Owns n := by
      intro n hn
      obtain ⟨y, hy, rfl⟩ := List.mem_map.mp hn
      exact Circuit.owns_bit (fun n hn => ((hothers y hy).owns n hn).mono hcd) i
    have hbit := ((Junction.Reads.empty d op).add hfirst.reads).addUntilDecided hrest
    apply (ensures_accumulate hd hbit).reads_congr
    intro σ
    simp [values, Function.comp_def]
  refine (Ensures.mapM (fun σ i => op.join (values σ i)) hc hposition).mono fun z d hcd _ hz => ?_
  have hlength : z.length = width := by
    rw [hz.length_eq fun _ => false, List.length_map, List.length_range]
  have hlength_le : z.length ≤ d.bitwidth := by
    rw [hlength, hcd.bitwidth]
    exact hle
  apply (hz.denotes (hlength ▸ hpos) hlength_le).congr
  intro σ
  have hbits : ∀ y ∈ others, y ≠ [] ∧ y.length ≤ width := fun y hy =>
    ⟨(hothers y hy).ne_nil, hwidth y hy⟩
  rw [decode_map_join op σ hpos hbits fun i => (x.bit i).eval σ]
  have hfirst := hx.decode_extend width σ
  rw [extend_eq_map_bit hxwidth, List.map_map] at hfirst
  exact congrArg (fun k => List.foldl op.onInt k (others.map (denote σ))) hfirst

end Bits

end IntCircuit
