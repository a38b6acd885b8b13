import IntCircuit.Bits.Multiply
import IntCircuit.Proofs.Bits.Add

/-!
# Products are products

The rows of a product are added one position further up each, so that what is above a settled bit
counts twice what it does on its own. The bits that are still to come make an integer, whose last
bit has negative weight; its row is the one that is subtracted.

## Main results

* `Bits.ensures_addRows`: the partial product with the rows that are still to come
* `Bits.ensures_mul`: the product, wrapped to the bitwidth
-/

namespace IntCircuit.Bits

open Build

variable {c d : Circuit} {x y : Bits} {m n : (Nat → Bool) → Int}

instance (y bits above : Bits) : Grows (addRows y bits above) := by
  fun_induction addRows y bits above <;> infer_instance

instance (x y : Bits) : Grows (mul x y) := by
  rw [mul]
  exact .look (fun _ => inferInstance) fun _ _ h => by rw [h]

/-- The row of the sign, of which only the lowest bit is left: it is subtracted. -/
theorem ensures_signRow (hc : c.Sound) (hy : ∀ n ∈ y, c.Owns n) (hpos : 0 < y.length)
    {sign settled : Node} (hsign : c.Owns sign) (hsettled : c.Owns settled) {above : Bits}
    (habove : ∀ n ∈ above, c.Owns n) (hlength : above.length = 1) :
    Ensures c (addRows y [sign] (settled :: above)) fun z d => d.Counts z 2 fun σ =>
      bitValue (settled.eval σ) + 2 * (unsigned (above.map (Node.eval σ)) -
        bitValue (sign.eval σ) * unsigned (y.map (Node.eval σ))) := by
  cases y with
  | nil => cases hpos
  | cons first rest =>
    have hfirst : bit (first :: rest) 0 = first := bit_of_lt (Nat.succ_pos _)
    rw [addRows, hfirst]
    refine (Build.ensures_and hc hsign (hy first List.mem_cons_self)).bind fun r d hcd hd hr => ?_
    refine (Build.ensures_not hd hr.owns).bind fun row e hde he hrow => ?_
    have hce : c ≤ e := hcd.trans hde
    refine (ensures_ripple (fun σ n => n.eval σ) he (hlength.le : above.length ≤ [row].length)
      (fun n hn => (habove n hn).mono hce)
      (fun n hn f hef hf => ensures_pure hf ((List.mem_singleton.mp hn ▸ hrow.owns).mono hef)
        fun _ => rfl) (e.owns_const true)).bind fun z f hef hf hz => ?_
    rw [hlength] at hz
    refine .pure hf (Circuit.Counts.cons (hsettled.mono (hce.trans hef)) (hz.congr fun σ => ?_))
    rw [List.map_singleton, unsigned_cons, unsigned_nil, hrow.eval, hr.eval, Node.eval_const,
      bitValue_true, List.map_cons, unsigned_cons]
    -- in the lowest bit, subtracting is what adding the complement and one does
    cases sign.eval σ <;> cases first.eval σ <;>
      simp only [Bool.and_true, Bool.and_false, Bool.not_true, Bool.not_false, bitValue_true,
        bitValue_false] <;> refine Int.modEq_iff_dvd.mpr ?_ <;> omega

/-- **The rows that are still to come** make a product with twice the integer of their bits, which
is added to the partial product. -/
theorem ensures_addRows (hc : c.Sound) (hy : ∀ n ∈ y, c.Owns n) {bits above : Bits}
    (hbits : ∀ n ∈ bits, c.Owns n) (habove : ∀ n ∈ above, c.Owns n)
    (hlength : above.length = bits.length + 1) (hle : above.length ≤ y.length) :
    Ensures c (addRows y bits above) fun z d => d.Counts z above.length fun σ =>
      unsigned (above.map (Node.eval σ)) +
        2 * (decode (bits.map (Node.eval σ)) * unsigned (y.map (Node.eval σ))) := by
  induction bits generalizing c above with
  | nil =>
    rw [addRows]
    exact .pure hc ((Circuit.Counts.of_owns habove).congr fun σ => by simp [decode])
  | cons bit rest ih =>
    cases above with
    | nil => cases hlength
    | cons settled above =>
      have hsettled := habove settled List.mem_cons_self
      have hbit := hbits bit List.mem_cons_self
      have habove' : ∀ n ∈ above, c.Owns n := fun n hn => habove n (List.mem_cons_of_mem _ hn)
      have hlength' : above.length = rest.length + 1 := Nat.succ.inj hlength
      have hle' : above.length ≤ y.length := Nat.le_of_succ_le hle
      cases rest with
      | nil =>
        -- the last row is that of the sign
        refine (ensures_signRow hc hy (Nat.lt_of_lt_of_le (by omega) hle) hbit hsettled habove'
          hlength').mono fun z d _ _ hz => ?_
        rw [List.length_cons, hlength']
        refine hz.congr fun σ => Int.modEq_of_dvd ⟨0, ?_⟩
        rw [List.map_cons, unsigned_cons, List.map_singleton, decode_singleton]
        ring
      | cons next rest =>
        -- the lowest bit of the partial product is settled, and the row is added to the others
        rw [addRows]
        · refine (ensures_ripple (fun σ n => bit.eval σ && n.eval σ) hc hle' habove'
            (fun n hn d hcd hd => Build.ensures_and hd (hbit.mono hcd) ((hy n hn).mono hcd))
            (c.owns_const false)).bind fun sums d hcd hd hsums => ?_
          refine (ih hd (fun n hn => (hy n hn).mono hcd)
            (fun n hn => (hbits n (List.mem_cons_of_mem _ hn)).mono hcd) hsums.owns
            (hsums.length.trans hlength') (hsums.length ▸ hle')).bind fun z e hde he hz => ?_
          rw [hsums.length] at hz
          refine .pure he ((Circuit.Counts.cons (hsettled.mono (hcd.trans hde)) (hz.congr fun σ =>
            (hsums.modEq σ).add_right _)).congr fun σ => Int.modEq_of_dvd ⟨0, ?_⟩)
          have hbits : decode ((bit :: next :: rest).map (Node.eval σ)) =
              bitValue (bit.eval σ) + 2 * decode ((next :: rest).map (Node.eval σ)) :=
            decode_cons (List.cons_ne_nil _ _) _
          rw [unsigned_map_and, hbits, Node.eval_const, bitValue_false, List.map_cons,
            unsigned_cons]
          ring
        · intro h
          cases h

/-- **The product** of two integers. -/
theorem ensures_mul (hc : c.Sound) (hx : c.Denotes x m) (hy : c.Denotes y n) :
    Ensures c (mul x y) fun z d => d.Denotes z fun σ => wrap d.bitwidth (m σ * n σ) := by
  obtain ⟨w, hw⟩ : ∃ w, min (x.length + y.length) c.bitwidth = w + 1 :=
    ⟨min (x.length + y.length) c.bitwidth - 1, by
      have := hx.width_pos
      have := c.bitwidth_pos
      omega⟩
  have hxpos := hx.width_pos
  have hxle := hx.width_le
  have hyle := hy.width_le
  have hx' := hx.extend (w := w + 1) (by omega)
  have hy' := hy.extend (w := w + 1) (by omega)
  obtain ⟨lowest, rest, hrest⟩ : ∃ lowest rest, x.extend (w + 1) = lowest :: rest :=
    List.exists_cons_of_length_eq_add_one hx'.length
  have hfirst : bit (lowest :: rest) 0 = lowest := bit_of_lt (Nat.succ_pos _)
  refine .get_bind ?_
  dsimp only
  rw [hw, hrest, hfirst, List.drop_one, List.tail_cons]
  rw [hrest] at hx'
  have hlowest := hx'.owns lowest List.mem_cons_self
  have hlength : rest.length = w := Nat.succ.inj hx'.length
  -- the row of the lowest bit is the partial product that the others are added to
  refine (Ensures.mapM (fun σ n => lowest.eval σ && n.eval σ) hc fun n hn d hcd hd =>
    Build.ensures_and hd (hlowest.mono hcd) ((hy'.owns n hn).mono hcd)).bind
    fun first d hcd hd hrow => ?_
  have hrowlength : first.length = w + 1 := by
    rw [hrow.length_eq fun _ => false, List.length_map, hy'.length]
  refine (ensures_addRows hd (fun n hn => (hy'.owns n hn).mono hcd)
    (fun n hn => (hx'.owns n (List.mem_cons_of_mem _ hn)).mono hcd) hrow.owns (by omega)
    (by rw [hrowlength, hy'.length])).mono fun z e hde _ hz => ?_
  have hbitwidth : e.bitwidth = c.bitwidth := (hcd.trans hde).bitwidth
  rw [hrowlength] at hz
  refine (hz.congr (g := fun σ => m σ * n σ) ?_).denotes (Nat.succ_pos w) (by omega) ?_
  · intro σ
    -- the lowest bit and twice the others make the first factor
    have hm := hx.decode_extend (w + 1) σ
    rw [hrest, List.map_cons] at hm
    have hcons := decode_cons_modEq (lowest.eval σ) (rest.map (Node.eval σ))
    rw [hm, List.length_map, hlength] at hcons
    have hprod := hcons.symm.mul (hy'.modEq σ)
    rw [hrow.eval, unsigned_map_and]
    refine (Int.modEq_of_dvd ⟨0, ?_⟩).trans hprod
    ring
  · -- a product that is not as wide as the bitwidth needs no wrapping
    by_cases hfull : w + 1 = e.bitwidth
    · exact .inl hfull
    · right
      intro σ
      have hwidth : w + 1 = x.length + y.length := by omega
      rw [hwidth]
      exact (hx.inRange_length σ).mul (hy.inRange_length σ)

end IntCircuit.Bits
