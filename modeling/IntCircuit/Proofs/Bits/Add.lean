import IntCircuit.Bits.Add
import IntCircuit.Proofs.Bits.Logic

/-!
# Sums are sums

A chain of full adders keeps one equation from the lowest bit up: the bits made so far, with the
carry above them, are the sum of the bits read so far. What leaves the chain at its end is lost, so
that sums are right up to a power of two.

## Main results

* `Bits.ensures_ripple`: the number that a chain of full adders makes
* `Bits.ensures_add`, `Bits.ensures_sub`, `Bits.ensures_neg`: sums, wrapped to the bitwidth
* `Bits.ensures_abs`, `Bits.ensures_signum`: what is built from signs
-/

namespace IntCircuit.Bits

open Build

variable {c d : Circuit} {x y : Bits} {m n : (Nat → Bool) → Int}

/-- A full adder adds. -/
theorem bitValue_fullAdder (a b carryIn : Bool) :
    bitValue (a ^^ b ^^ carryIn) + 2 * bitValue ((a && b) || (carryIn && (a ^^ b))) =
      bitValue a + bitValue b + bitValue carryIn := by
  cases a <;> cases b <;> cases carryIn <;> rfl

instance (addend : Node → Build Node) [∀ n, Grows (addend n)] (pairs : List (Node × Node))
    (carryIn : Node) : Grows (ripple addend pairs carryIn) := by
  induction pairs generalizing carryIn with
  | nil => rw [ripple]; infer_instance
  | cons p rest ih => rw [ripple]; infer_instance

/-- **A chain of full adders** makes the sum of two numbers and a carry, where the bits of the
second number go through `addend`. There may be more of them; what they add is beyond the sum. -/
theorem ensures_ripple (value : (Nat → Bool) → Node → Bool) {addend : Node → Build Node}
    [∀ n, Grows (addend n)] (hc : c.Sound) {xs ys : List Node}
    (hlength : xs.length ≤ ys.length) (hxs : ∀ n ∈ xs, c.Owns n)
    (haddend : ∀ n ∈ ys, ∀ d, c ≤ d → d.Sound →
      Ensures d (addend n) fun r e => e.Reads r fun σ => value σ n)
    {carryIn : Node} (hcarry : c.Owns carryIn) :
    Ensures c (ripple addend (xs.zip ys) carryIn) fun z d =>
      d.Counts z xs.length fun σ => unsigned (xs.map (Node.eval σ)) +
        unsigned (ys.map (value σ)) + bitValue (carryIn.eval σ) := by
  induction xs generalizing c ys carryIn with
  | nil =>
    rw [List.zip_nil_left, ripple]
    refine .pure hc ⟨fun _ h => (List.not_mem_nil h).elim, rfl, fun σ => ?_⟩
    rw [List.length_nil, pow_zero]
    exact Int.modEq_one
  | cons a xs ih =>
    cases ys with
    | nil => exact absurd hlength (by simp)
    | cons b ys =>
      have ha := hxs a List.mem_cons_self
      rw [List.zip_cons_cons, ripple]
      refine (haddend b List.mem_cons_self c (le_refl c) hc).bind fun b' d hcd hd hb => ?_
      refine (ensures_sum hd (ha.mono hcd) hb.owns (hcarry.mono hcd)).bind
        fun s e hde he hs => ?_
      refine (ensures_carry he (ha.mono (hcd.trans hde)) (hb.owns.mono hde)
        (hcarry.mono (hcd.trans hde))).bind fun out f hef hf hout => ?_
      have hcf : c ≤ f := hcd.trans (hde.trans hef)
      refine (ih hf (Nat.le_of_succ_le_succ hlength)
        (fun n hn => (hxs n (List.mem_cons_of_mem a hn)).mono hcf)
        (fun n hn g hfg => haddend n (List.mem_cons_of_mem b hn) g (hcf.trans hfg))
        hout.owns).bind fun z g hfg hg hz => ?_
      have hlength : (s :: z).length = (a :: xs).length := by
        rw [List.length_cons, hz.length, List.length_cons]
      refine .pure hg ⟨?_, hlength, ?_⟩
      · intro n hn
        rcases List.mem_cons.mp hn with rfl | hn
        · exact hs.owns.mono (hef.trans hfg)
        · exact hz.owns n hn
      · intro σ
        -- the carry counts twice what it does one position further down
        have hadder := bitValue_fullAdder (a.eval σ) (value σ b) (carryIn.eval σ)
        have hrest : 2 * unsigned (z.map (Node.eval σ)) ≡ 2 * _ [ZMOD 2 * 2 ^ xs.length] :=
          (hz.modEq σ).mul_left'
        rw [hout.eval, hb.eval] at hrest
        rw [List.map_cons, List.map_cons, List.map_cons, unsigned_cons, unsigned_cons,
          unsigned_cons, hs.eval, hb.eval, List.length_cons, pow_succ']
        refine (hrest.add_left _).trans (Int.modEq_of_dvd ⟨0, ?_⟩)
        linarith

instance (x y : Bits) : Grows (add x y) := by
  rw [add]
  exact .look (fun _ => inferInstance) fun _ _ h => by rw [h]

instance (x y : Bits) : Grows (sub x y) := by
  rw [sub]
  exact .look (fun _ => inferInstance) fun _ _ h => by rw [h]

instance (x : Bits) : Grows (neg x) := inferInstanceAs (Grows (sub _ _))

instance (x : Bits) : Grows (abs x) := by
  rw [abs]
  infer_instance

instance (x : Bits) : Grows (do return x.take (← get).bitwidth) :=
  .look (fun _ => inferInstance) fun _ _ h => by rw [h]

instance (x : Bits) : Grows (signum x) := by
  rw [signum]
  infer_instance

/-- Two integers at the width of their sum. -/
theorem length_le_sumWidth (hx : c.Denotes x m) (hy : c.Denotes y n) :
    x.length ≤ sumWidth c.bitwidth x y ∧ y.length ≤ sumWidth c.bitwidth x y ∧
      sumWidth c.bitwidth x y ≤ c.bitwidth := by
  have hxle := hx.width_le
  have hyle := hy.width_le
  rw [sumWidth, maxWidth]
  omega

/-- A sum has the bitwidth, or a width in which it needs no wrapping. -/
theorem inRange_sumWidth (hx : c.Denotes x m) (hy : c.Denotes y n) :
    sumWidth c.bitwidth x y = c.bitwidth ∨
      ∀ σ, InRange (sumWidth c.bitwidth x y) (m σ + n σ) ∧
        InRange (sumWidth c.bitwidth x y) (m σ - n σ) := by
  by_cases h : maxWidth x y + 1 ≤ c.bitwidth
  · right
    intro σ
    have hm := (hx.inRange_length σ).mono (Nat.le_max_left _ y.length)
    have hn := (hy.inRange_length σ).mono (Nat.le_max_right x.length _)
    rw [sumWidth, Nat.min_eq_left h]
    exact ⟨hm.add hn, hm.sub hn⟩
  · left
    rw [sumWidth]
    omega

/-- A chain of full adders at the width of a sum, for what the bits stand for at that width. -/
theorem ensures_ripple_extend (value : (Nat → Bool) → Node → Bool) {addend : Node → Build Node}
    [∀ n, Grows (addend n)] (hc : c.Sound) (hx : c.Denotes x m) (hy : c.Denotes y n)
    {carryIn : Node} (hcarry : c.Owns carryIn) {width : Nat}
    (hwidth : width = sumWidth c.bitwidth x y)
    (haddend : ∀ a d, c ≤ d → d.Sound → d.Owns a →
      Ensures d (addend a) fun r e => e.Reads r fun σ => value σ a) {f : (Nat → Bool) → Int}
    (hvalue : ∀ σ, unsigned ((x.extend width).map (Node.eval σ)) +
      unsigned ((y.extend width).map (value σ)) + bitValue (carryIn.eval σ) ≡ f σ [ZMOD 2 ^ width])
    (hrange : width = c.bitwidth ∨ ∀ σ, InRange width (f σ)) :
    Ensures c (ripple addend ((x.extend width).zip (y.extend width)) carryIn) fun z d =>
      d.Denotes z fun σ => wrap d.bitwidth (f σ) := by
  obtain ⟨hxw, hyw, hwb⟩ := length_le_sumWidth hx hy
  rw [← hwidth] at hxw hyw hwb
  have hx' := hx.extend hxw
  have hy' := hy.extend hyw
  refine (ensures_ripple value hc (by rw [hx'.length, hy'.length]) hx'.owns
    (fun a ha d hcd hd => haddend a d hcd hd ((hy'.owns a ha).mono hcd)) hcarry).mono
    fun z d hcd _ hz => ?_
  rw [hx'.length] at hz
  refine (hz.congr hvalue).denotes (Nat.lt_of_lt_of_le hx.width_pos hxw) (hcd.bitwidth ▸ hwb) ?_
  rw [hcd.bitwidth]
  exact hrange

/-- **The sum** of two integers. -/
theorem ensures_add (hc : c.Sound) (hx : c.Denotes x m) (hy : c.Denotes y n) :
    Ensures c (add x y) fun z d => d.Denotes z fun σ => wrap d.bitwidth (m σ + n σ) := by
  obtain ⟨hxw, hyw, -⟩ := length_le_sumWidth hx hy
  refine .get_bind (ensures_ripple_extend (fun σ a => a.eval σ) hc hx hy (c.owns_const false) rfl
    (fun a d _ hd ha => ensures_pure hd ha fun _ => rfl) (fun σ => ?_)
    ((inRange_sumWidth hx hy).imp_right fun h σ => (h σ).1))
  rw [Node.eval_const, bitValue_false, add_zero]
  exact ((hx.extend hxw).modEq σ).add ((hy.extend hyw).modEq σ)

/-- **The difference** of two integers. -/
theorem ensures_sub (hc : c.Sound) (hx : c.Denotes x m) (hy : c.Denotes y n) :
    Ensures c (sub x y) fun z d => d.Denotes z fun σ => wrap d.bitwidth (m σ - n σ) := by
  obtain ⟨hxw, hyw, -⟩ := length_le_sumWidth hx hy
  have hy' := hy.extend hyw
  refine .get_bind (ensures_ripple_extend (fun σ a => !a.eval σ) hc hx hy (c.owns_const true) rfl
    (fun a d _ hd ha => Build.ensures_not hd ha) (fun σ => ?_)
    ((inRange_sumWidth hx hy).imp_right fun h σ => (h σ).2))
  rw [Node.eval_const, bitValue_true, unsigned_map_not, hy'.length]
  -- a complement and one more make the negative, up to a power of two
  have hsub := ((hx.extend hxw).modEq σ).sub (hy'.modEq σ)
  refine Int.ModEq.trans (Int.modEq_iff_dvd.mpr ⟨-1, ?_⟩) hsub
  ring

/-- Zero in one bit. -/
theorem denotes_zero (c : Circuit) : c.Denotes [.const false] fun _ => 0 :=
  ⟨fun n hn => List.mem_singleton.mp hn ▸ c.owns_const false, Nat.one_pos, c.bitwidth_pos,
    fun _ => by simp [denote, decode]⟩

/-- **The opposite** of an integer. -/
theorem ensures_neg (hc : c.Sound) (hx : c.Denotes x m) :
    Ensures c (neg x) fun z d => d.Denotes z fun σ => wrap d.bitwidth (-m σ) :=
  (ensures_sub hc (denotes_zero c) hx).mono fun _ _ _ _ hz => hz.congr fun σ => by rw [zero_sub]

/-- **An integer without its sign.** -/
theorem ensures_abs (hc : c.Sound) (hx : c.Denotes x m) :
    Ensures c (abs x) fun z d => d.Denotes z fun σ => wrap d.bitwidth |m σ| := by
  refine (Build.ensures_not hc (Circuit.owns_bit hx.owns _)).bind fun r d hcd hd hr => ?_
  refine (ensures_neg hd (hx.mono hcd)).bind fun x' e hde he hx' => ?_
  refine (ensures_choose he (hr.owns.mono hde) (hx.mono (hcd.trans hde)) hx').mono
    fun z f hef _ hz => hz.congr fun σ => ?_
  have hsign := hx.eval_sign σ
  rw [sign] at hsign
  rw [hr.eval, hsign, hef.bitwidth]
  -- the least integer is the one whose opposite has to be wrapped
  by_cases h : m σ < 0
  · simp [h, abs_of_neg h]
  · have hrange := (hx.mono (hcd.trans hde)).inRange σ
    simp [h, abs_of_nonneg (not_lt.mp h), wrap_of_inRange hrange]

/-- **The sign** of an integer. With one bit it is the integer itself. -/
theorem ensures_signum (hc : c.Sound) (hx : c.Denotes x m) :
    Ensures c (signum x) fun z d => d.Denotes z fun σ => (m σ).sign := by
  refine (Build.ensures_anyOf hc hx.owns).bind fun r d hcd hd hr => ?_
  refine .get_bind (.pure hd ?_)
  have hlength : ([r, x.sign].take d.bitwidth).length = min d.bitwidth 2 := List.length_take
  have hpos := d.bitwidth_pos
  refine ⟨?_, by omega, by omega, ?_⟩
  · intro n hn
    rcases List.mem_cons.mp (List.mem_of_mem_take hn) with rfl | hn
    · exact hr.owns
    · exact List.mem_singleton.mp hn ▸ (Circuit.owns_bit hx.owns _).mono hcd
  · intro σ
    have hsign := hx.eval_sign σ
    have hnonzero : r.eval σ = decide (m σ ≠ 0) := by
      rw [hr.eval, any_eval_eq, hx.denote]
    by_cases hwide : 2 ≤ d.bitwidth
    · -- the lower bit says whether the integer is 0, the upper one whether it is negative
      rw [List.take_of_length_le hwide, denote, List.map_cons, List.map_singleton, hnonzero, hsign]
      rcases lt_trichotomy (m σ) 0 with h | h | h
      · simp [h, h.ne, Int.sign_eq_neg_one_of_neg h, decode]
      · simp [h, decode]
      · simp [h.not_gt, h.ne', Int.sign_eq_one_of_pos h, decode]
    · -- one bit holds nothing but 0 and -1
      have hone : d.bitwidth = 1 := by omega
      have hrange := (hx.mono hcd).inRange σ
      rw [hone, InRange] at hrange
      rw [hone, List.take_succ_cons, List.take_zero, denote, List.map_singleton, hnonzero]
      have hcases : m σ = 0 ∨ m σ = -1 := by omega
      rcases hcases with h | h <;> simp [h, decode]

end IntCircuit.Bits
