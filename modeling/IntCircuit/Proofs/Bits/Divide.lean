import IntCircuit.Bits.Divide
import IntCircuit.Proofs.Bits.Add
import IntCircuit.Proofs.Bits.Quotient

/-!
# Quotients and remainders are those of integers

The register of a division holds the partial remainder of every round, for it is wide enough, so
that its sign and whether it is zero are those of an integer. What the circuit corrects at the end
is then what the division of integers corrects.

## Main definitions

* `Rounds.Inv`: the rounds so far, as a division of integers

## Main results

* `Rounds.ensures_step`: what one round preserves
* `Bits.ensures_correction`: the correction is that of the division of integers
* `Bits.ensures_div`, `Bits.ensures_mod`: quotient and remainder, wrapped to the bitwidth
-/

namespace IntCircuit

open Build

variable {c d : Circuit} {b : Nat} {m n : (Nat → Bool) → Int}

theorem rotateLeft_perm {α : Type} (items : List α) (i : Nat) :
    (items.rotateLeft i).Perm items := by
  unfold List.rotateLeft
  dsimp only
  split
  · exact .refl _
  · exact List.perm_append_comm.trans (.of_eq (List.take_append_drop _ _))

/-- Where the register starts makes no difference to whether some bit of it is set. -/
theorem any_rotateLeft {α : Type} (items : List α) (i : Nat) (p : α → Bool) :
    (items.rotateLeft i).any p = items.any p := by
  rw [Bool.eq_iff_iff, List.any_eq_true, List.any_eq_true]
  simp only [(rotateLeft_perm items i).mem_iff]

namespace Rounds

/-- The register holds the partial remainder of the integers' division after so many rounds, the
digits are those of its quotient, and the tests tell which partial remainders were not zero. -/
structure Inv (b : Nat) (m n : (Nat → Bool) → Int) (rounds : Nat) (r : Rounds) (d : Circuit) :
    Prop where
  register : d.Counts r.register (2 * b + 1) fun σ => remainderAfter b (m σ) (n σ) rounds
  digits : d.Counts r.digits rounds fun σ => quotientAfter b (m σ) (n σ) rounds
  nonzero : d.ReadsAll r.nonzero fun σ =>
    (List.range rounds).map fun i => decide (remainderAfter b (m σ) (n σ) i ≠ 0)

instance (divisor : Bits) (r : Rounds) (i : Nat) : Grows (step b divisor r i) := by
  rw [step]
  infer_instance

/-- The register is wide enough for the partial remainder. -/
theorem Inv.denote {rounds : Nat} {r : Rounds} (hr : r.Inv b m n rounds d)
    (hm : ∀ σ, InRange b (m σ)) (hn : ∀ σ, InRange b (n σ)) (hle : rounds ≤ b) (σ : Nat → Bool) :
    r.register.denote σ = remainderAfter b (m σ) (n σ) rounds :=
  hr.register.denote_of_inRange (inRange_remainderAfter (hm σ) (hn σ) hle)

theorem Inv.eval_sign {rounds : Nat} {r : Rounds} (hr : r.Inv b m n rounds d)
    (hm : ∀ σ, InRange b (m σ)) (hn : ∀ σ, InRange b (n σ)) (hle : rounds ≤ b) (σ : Nat → Bool) :
    r.register.sign.eval σ = decide (remainderAfter b (m σ) (n σ) rounds < 0) :=
  hr.register.eval_sign (Nat.succ_pos _) (inRange_remainderAfter (hm σ) (hn σ) hle)

/-- Taking a number off the upper part of another, or adding it there. -/
theorem round_modEq {α : Type} (digit : Bool) {low high : List Bool} {v : α → Bool}
    {divisor : List α} {r n : Int} (hlow : low.length = b) (hdivisor : divisor.length = b + 1)
    (hr : unsigned (low ++ high) ≡ r [ZMOD 2 ^ (2 * b + 1)])
    (hn : unsigned (divisor.map v) ≡ n [ZMOD 2 ^ (b + 1)]) :
    unsigned low + 2 ^ b * (unsigned high + unsigned (divisor.map fun a => digit ^^ v a) +
      bitValue digit) ≡ r - digitValue digit * (2 ^ b * n) [ZMOD 2 ^ (2 * b + 1)] := by
  have hterm : unsigned (divisor.map fun a => digit ^^ v a) + bitValue digit ≡
      -digitValue digit * n [ZMOD 2 ^ (b + 1)] := by
    have hxor := unsigned_map_xor digit v divisor
    rw [hdivisor] at hxor
    refine hxor.trans ?_
    cases digit with
    | false => simpa [digitValue] using hn
    | true => simpa [digitValue] using hn.neg
  have hpow : (2 : Int) ^ (2 * b + 1) = 2 ^ b * 2 ^ (b + 1) := by ring
  rw [unsigned_append, hlow] at hr
  have hmoved := hterm.mul_left' (c := 2 ^ b)
  rw [← hpow] at hmoved
  calc unsigned low + 2 ^ b * (unsigned high + unsigned (divisor.map fun a => digit ^^ v a) +
        bitValue digit)
      = unsigned low + 2 ^ b * unsigned high +
        2 ^ b * (unsigned (divisor.map fun a => digit ^^ v a) + bitValue digit) := by ring
    _ ≡ r + 2 ^ b * (-digitValue digit * n) [ZMOD 2 ^ (2 * b + 1)] := hr.add hmoved
    _ = r - digitValue digit * (2 ^ b * n) := by ring

/-- **One round** of the circuit is one round of the division of integers. -/
theorem ensures_step (hc : c.Sound) {divisor : Bits} (hdivisor : c.Counts divisor (b + 1) n)
    (hm : ∀ σ, InRange b (m σ)) (hn : ∀ σ, InRange b (n σ)) {i : Nat} (hi : i < b) {r : Rounds}
    (hr : r.Inv b m n i c) : Ensures c (step b divisor r i) (Inv b m n (i + 1)) := by
  have hsign (σ : Nat → Bool) : divisor.sign.eval σ = decide (n σ < 0) :=
    hdivisor.eval_sign (Nat.succ_pos b) ((hn σ).mono (Nat.le_succ b))
  have hregister := hr.denote hm hn hi.le
  rw [step]
  refine (ensures_anyOf hc fun k hk => hr.register.owns k
    ((rotateLeft_perm _ _).mem_iff.mp hk)).bind fun nonzero d hcd hd hnonzero => ?_
  refine (ensures_iff hd ((Circuit.owns_sign hr.register.owns).mono hcd)
    ((Circuit.owns_sign hdivisor.owns).mono hcd)).bind fun digit e hde he hdigit => ?_
  have hce : c ≤ e := hcd.trans hde
  have hdigit' (σ : Nat → Bool) :
      digit.eval σ = sameSign (remainderAfter b (m σ) (n σ) i) (n σ) := by
    rw [hdigit.eval, hr.eval_sign hm hn hi.le, hsign, sameSign]
  have hdoubled := (hr.register.mono hce).shiftIn (e.owns_const false) (Nat.succ_pos _)
  have hdivisor' := hdivisor.mono hce
  -- of the register it matters only that it has been doubled, not how
  dsimp only
  generalize Node.const false :: r.register.dropLast = doubled at hdoubled ⊢
  have hlow : (doubled.take b).length = b := by
    rw [List.length_take, hdoubled.length]
    omega
  have hhigh : (doubled.drop b).length = b + 1 := by
    rw [List.length_drop, hdoubled.length]
    omega
  refine (Bits.ensures_ripple (fun σ k => digit.eval σ ^^ k.eval σ) he
    (by rw [hhigh, hdivisor.length]) (fun k hk => hdoubled.owns k (List.mem_of_mem_drop hk))
    (fun k hk f hef hf => ensures_xor hf (hdigit.owns.mono hef) ((hdivisor'.owns k hk).mono hef))
    hdigit.owns).bind fun upper f hef hf hupper => .pure hf ⟨?_, ?_, ?_⟩
  · -- the lower part is below the divisor, which was moved up
    have hlow' : ∀ k ∈ doubled.take b, f.Owns k := fun k hk =>
      (hdoubled.owns k (List.mem_of_mem_take hk)).mono hef
    have hregister' := Circuit.Counts.append hlow' hupper
    rw [hlow, hhigh, show b + (b + 1) = 2 * b + 1 by omega] at hregister'
    apply hregister'.congr
    intro σ
    have hsum : unsigned ((doubled.take b).map (Node.eval σ) ++
        (doubled.drop b).map (Node.eval σ)) ≡
          2 * remainderAfter b (m σ) (n σ) i [ZMOD 2 ^ (2 * b + 1)] := by
      rw [← List.map_append, List.take_append_drop]
      simpa using hdoubled.modEq σ
    rw [remainderAfter, ← hdigit']
    exact round_modEq (digit.eval σ) (by rw [List.length_map, hlow]) hdivisor.length hsum
      (hdivisor.modEq σ)
  · apply ((hr.digits.mono (hce.trans hef)).cons (hdigit.owns.mono hef)).congr
    intro σ
    rw [hdigit', quotientAfter]
  · have htests := (hr.nonzero.mono (hce.trans hef)).concat (hnonzero.mono (hde.trans hef))
    refine ⟨htests.owns, fun σ => ?_⟩
    rw [htests.eval, any_rotateLeft, Bits.any_eval_eq, hregister, List.range_succ, List.map_append,
      List.map_singleton]

theorem inv_start {x : Bits} (hx : c.Denotes x m) :
    (start c.bitwidth x).Inv c.bitwidth m n 0 c := by
  have hle := hx.width_le
  exact ⟨hx.extend (by omega), ⟨fun _ h => (List.not_mem_nil h).elim, rfl, fun _ => rfl⟩, .nil c⟩

end Rounds

namespace Bits

variable {x y : Bits}

instance (x divisor : Bits) : Grows (divisionRounds b x divisor) :=
  inferInstanceAs (Grows (List.foldlM _ _ _))

instance (x divisor : Bits) (r : Rounds) : Grows (correction b x divisor r) := by
  rw [correction]
  infer_instance

instance (x y : Bits) : Grows (div x y) := by
  rw [div]
  exact .look (fun _ => inferInstance) fun _ _ h => by rw [h]

instance (x y : Bits) : Grows (mod x y) := by
  rw [mod]
  exact .look (fun _ => inferInstance) fun _ _ h => by rw [h]

/-- **All rounds** of the circuit are those of the division of integers. -/
theorem ensures_divisionRounds (hc : c.Sound) (hx : c.Denotes x m) (hy : c.Denotes y n) :
    Ensures c (divisionRounds c.bitwidth x (y.extend (c.bitwidth + 1)))
      (Rounds.Inv c.bitwidth m n c.bitwidth) := by
  have hdivisor := hy.extend (w := c.bitwidth + 1) (Nat.le_succ_of_le hy.width_le)
  refine Ensures.foldlM_range (Rounds.Inv c.bitwidth m n) hc (Rounds.inv_start hx)
    fun i r d hi hcd hd hr => ?_
  exact Rounds.ensures_step hd (hdivisor.mono hcd) hx.inRange hy.inRange hi hr

/-- **The correction** is that of the division of integers. -/
theorem ensures_correction (hc : c.Sound) {divisor : Bits} (hdivisor : c.Counts divisor (b + 1) n)
    (hx : c.Denotes x m) (hm : ∀ σ, InRange b (m σ)) (hn : ∀ σ, InRange b (n σ)) {r : Rounds}
    (hr : r.Inv b m n b c) :
    Ensures c (correction b x divisor r) fun fix d =>
      d.Reads fix.needed (fun σ => needsFix b (m σ) (n σ)) ∧
        d.Reads fix.subtract fun σ => fixesUp b (m σ) (n σ) := by
  have hdsign (σ : Nat → Bool) : divisor.sign.eval σ = decide (n σ < 0) :=
    hdivisor.eval_sign (Nat.succ_pos b) ((hn σ).mono (Nat.le_succ b))
  have hregister := hr.denote hm hn (Nat.le_refl b)
  have hrsign := hr.eval_sign hm hn (Nat.le_refl b)
  have hrown := Circuit.owns_sign hr.register.owns
  rw [correction]
  refine (ensures_allOf hc hr.nonzero.owns).bind fun every d hcd hd hevery => ?_
  refine (Build.ensures_not hd hevery.owns).bind fun someZero e hde he hsome => ?_
  have hce := hcd.trans hde
  refine (ensures_anyOf he fun k hk => (hr.register.owns k
    ((rotateLeft_perm _ _).mem_iff.mp hk)).mono hce).bind fun nonzero f hef hf hnonzero => ?_
  have hcf := hce.trans hef
  refine (Build.ensures_xor hf (hrown.mono hcf) ((Circuit.owns_sign hx.owns).mono hcf)).bind
    fun differ g hfg hg hdiffer => ?_
  refine (Build.ensures_and hg hdiffer.owns (hnonzero.owns.mono hfg)).bind
    fun wrong h hgh hh hwrong => ?_
  refine (Build.ensures_or hh (hsome.owns.mono (hef.trans (hfg.trans hgh))) hwrong.owns).bind
    fun needed k hhk hk hneeded => ?_
  have hck := hcf.trans (hfg.trans (hgh.trans hhk))
  refine (Build.ensures_iff hk (hrown.mono hck) ((Circuit.owns_sign hdivisor.owns).mono hck)).bind
    fun subtract l hkl hl hsubtract =>
      .pure hl ⟨(hneeded.mono hkl).congr ?_, hsubtract.congr ?_⟩
  · intro σ
    -- not all partial remainders differ from zero
    have hall : (!r.nonzero.all (Node.eval σ)) =
        decide (∃ i < b, remainderAfter b (m σ) (n σ) i = 0) := by
      have hvalues : r.nonzero.all (Node.eval σ) = (r.nonzero.map (Node.eval σ)).all id := by
        rw [List.all_map]
        rfl
      rw [hvalues, hr.nonzero.eval, Bool.eq_iff_iff]
      simp
    rw [hsome.eval, hevery.eval, hall, hwrong.eval, hdiffer.eval, hnonzero.eval, any_rotateLeft,
      any_eval_eq, hregister, hrsign, hx.eval_sign, needsFix]
  · intro σ
    rw [hrsign, hdsign, fixesUp, sameSign]

/-- What the two bits of a correction add to the quotient. -/
theorem quotientFix_eq (b : Nat) (n d : Int) :
    quotientFix b n d = bitValue (needsFix b n d && fixesUp b n d) -
      bitValue (needsFix b n d && !fixesUp b n d) := by
  unfold quotientFix
  cases needsFix b n d <;> cases fixesUp b n d <;> rfl

theorem map_pair_eq_zip (moved : Bits) (n : Node) :
    (moved.map fun bit => (bit, n)) = moved.zip (List.replicate moved.length n) := by
  induction moved with
  | nil => rfl
  | cons bit rest ih =>
    rw [List.map_cons, ih, List.length_cons, List.replicate_succ, List.zip_cons_cons]

/-- **The quotient** of two integers. -/
theorem ensures_div (hc : c.Sound) (hx : c.Denotes x m) (hy : c.Denotes y n) :
    Ensures c (div x y) fun z d => d.Denotes z fun σ => wrap d.bitwidth (quotient (m σ) (n σ)) := by
  have hdivisor := hy.extend (w := c.bitwidth + 1) (Nat.le_succ_of_le hy.width_le)
  refine .get_bind ?_
  refine (ensures_divisionRounds hc hx hy).bind fun r d hcd hd hr => ?_
  refine (ensures_correction hd (hdivisor.mono hcd) (hx.mono hcd) hx.inRange hy.inRange hr).bind
    fun fix e hde he hfix => ?_
  obtain ⟨hneeded, hsubtract⟩ := hfix
  have hmoved := (hr.digits.mono hde).shiftIn (e.owns_const true) c.bitwidth_pos
  dsimp only
  generalize Node.const true :: r.digits.dropLast = moved at hmoved ⊢
  refine (Build.ensures_not he hsubtract.owns).bind fun keep f hef hf hkeep => ?_
  refine (Build.ensures_and hf (hneeded.owns.mono hef) hkeep.owns).bind
    fun down g hfg hg hdown => ?_
  have heg := hef.trans hfg
  refine (Build.ensures_and hg (hneeded.owns.mono heg) (hsubtract.owns.mono heg)).bind
    fun up h hgh hh hup => ?_
  rw [map_pair_eq_zip]
  refine (ensures_ripple (fun σ k => k.eval σ) hh (by rw [List.length_replicate])
    (fun k hk => (hmoved.owns k hk).mono (heg.trans hgh))
    (fun k hk l hhl hl => ensures_pure hl
      ((List.eq_of_mem_replicate hk ▸ hdown.owns.mono hgh).mono hhl) fun _ => rfl)
    hup.owns).mono fun z l hhl _ hz => ?_
  have hcl : c ≤ l := hcd.trans (hde.trans (heg.trans (hgh.trans hhl)))
  rw [hmoved.length] at hz
  rw [hcl.bitwidth]
  refine hcl.bitwidth ▸ (hz.congr (g := fun σ => quotient (m σ) (n σ)) fun σ => ?_).denotes
    c.bitwidth_pos (Nat.le_of_eq hcl.bitwidth.symm) (.inl hcl.bitwidth.symm)
  refine Int.ModEq.trans ?_ (quotient_modEq c.bitwidth_pos (hx.inRange σ))
  rw [List.map_replicate, unsigned_replicate, hdown.eval, hkeep.eval, hup.eval,
    hneeded.eval, hsubtract.eval, quotientFix_eq, quotientDigits]
  generalize bitValue (needsFix c.bitwidth (m σ) (n σ) && fixesUp c.bitwidth (m σ) (n σ)) = u
  generalize bitValue (needsFix c.bitwidth (m σ) (n σ) && !fixesUp c.bitwidth (m σ) (n σ)) = v
  -- all ones are one less than nothing
  refine (((hmoved.modEq σ).add_right _).add_right _).trans (Int.modEq_iff_dvd.mpr ⟨-(v + 1), ?_⟩)
  rw [Node.eval_const, bitValue_true]
  ring

/-- The upper part of a number that is a multiple of the lower part's size. -/
theorem upper_modEq {low high : List Bool} {r : Int} (hlow : low.length = b)
    (h : unsigned (low ++ high) ≡ 2 ^ b * r [ZMOD 2 ^ (2 * b + 1)]) :
    unsigned high ≡ r [ZMOD 2 ^ (b + 1)] := by
  have hpos : (0 : Int) < 2 ^ b := by positivity
  have hlt := unsigned_lt low
  rw [hlow] at hlt
  rw [unsigned_append, hlow, show (2 : Int) ^ (2 * b + 1) = 2 ^ b * 2 ^ (b + 1) by ring] at h
  -- the lower part is a multiple of what it is less than
  have hzero : unsigned low = 0 := by
    refine Int.eq_zero_of_dvd_of_nonneg_of_lt (unsigned_nonneg low) hlt ?_
    have hdvd := (dvd_mul_right ((2 : Int) ^ b) (2 ^ (b + 1))).trans h.dvd
    have hrest : (2 : Int) ^ b ∣ 2 ^ b * r - 2 ^ b * unsigned high := by
      rw [← mul_sub]
      exact dvd_mul_right _ _
    have hsub := dvd_sub hrest hdvd
    have hlow' : 2 ^ b * r - 2 ^ b * unsigned high -
        (2 ^ b * r - (unsigned low + 2 ^ b * unsigned high)) = unsigned low := by
      ring
    rwa [hlow'] at hsub
  rw [hzero, zero_add] at h
  exact Int.ModEq.mul_left_cancel' hpos.ne' h

/-- What a correction adds to the remainder. -/
theorem fix_modEq {α : Type} (needed subtract : Bool) {v : α → Bool} {divisor : List α} {w : Nat}
    (hlength : divisor.length = w) {n : Int} (hn : unsigned (divisor.map v) ≡ n [ZMOD 2 ^ w]) :
    unsigned (divisor.map fun a => needed && (subtract ^^ v a)) + bitValue (needed && subtract) ≡
      -(n * (bitValue (needed && subtract) - bitValue (needed && !subtract))) [ZMOD 2 ^ w] := by
  subst hlength
  rw [unsigned_map_and]
  cases needed with
  | false => simp
  | true =>
    rw [bitValue_true, one_mul, Bool.true_and, Bool.true_and]
    refine (unsigned_map_xor subtract v divisor).trans ?_
    cases subtract with
    | false => simpa using hn
    | true => simpa using hn.neg

/-- **The remainder** of two integers. -/
theorem ensures_mod (hc : c.Sound) (hx : c.Denotes x m) (hy : c.Denotes y n) :
    Ensures c (mod x y) fun z d => d.Denotes z fun σ => wrap d.bitwidth ((m σ).tmod (n σ)) := by
  have hdivisor := hy.extend (w := c.bitwidth + 1) (Nat.le_succ_of_le hy.width_le)
  refine .get_bind ?_
  refine (ensures_divisionRounds hc hx hy).bind fun r d hcd hd hr => ?_
  refine (ensures_correction hd (hdivisor.mono hcd) (hx.mono hcd) hx.inRange hy.inRange hr).bind
    fun fix e hde he hfix => ?_
  obtain ⟨hneeded, hsubtract⟩ := hfix
  have hce := hcd.trans hde
  have hdivisor' := hdivisor.mono hce
  have hlow : (r.register.take c.bitwidth).length = c.bitwidth := by
    rw [List.length_take, hr.register.length]
    omega
  have hhigh : (r.register.drop c.bitwidth).length = c.bitwidth + 1 := by
    rw [List.length_drop, hr.register.length]
    omega
  refine (Build.ensures_and he hneeded.owns hsubtract.owns).bind fun carryIn f hef hf hcarry => ?_
  refine (ensures_ripple
    (fun σ k => fix.needed.eval σ && (fix.subtract.eval σ ^^ k.eval σ)) hf
    (by rw [hhigh, hdivisor.length])
    (fun k hk => (hr.register.owns k (List.mem_of_mem_drop hk)).mono (hde.trans hef))
    (fun k hk g hfg hg => ?_) hcarry.owns).bind fun z l hfl hl hz => .pure hl ?_
  · -- every bit of the divisor is turned over or not, and then dropped or not
    have heg := hef.trans hfg
    refine (Build.ensures_xor hg (hsubtract.owns.mono heg)
      ((hdivisor'.owns k hk).mono heg)).bind fun turned h hgh hh hturned => ?_
    apply (Build.ensures_and hh (hneeded.owns.mono (heg.trans hgh)) hturned.owns).reads_congr
    intro σ
    rw [hturned.eval]
  have hcl : c ≤ l := hce.trans (hef.trans hfl)
  rw [hhigh] at hz
  rw [hcl.bitwidth]
  refine hcl.bitwidth ▸ ((hz.congr (g := fun σ => (m σ).tmod (n σ)) fun σ => ?_).take
    (Nat.le_succ _)).denotes c.bitwidth_pos (Nat.le_of_eq hcl.bitwidth.symm)
    (.inl hcl.bitwidth.symm)
  -- the last partial remainder is the remainder without correction, moved up
  have hregister := hr.register.modEq σ
  rw [remainderAfter_last, ← List.take_append_drop c.bitwidth r.register, List.map_append]
    at hregister
  have hupper := upper_modEq (by rw [List.length_map, hlow]) hregister
  have hfix := fix_modEq (needsFix c.bitwidth (m σ) (n σ)) (fixesUp c.bitwidth (m σ) (n σ))
    hdivisor.length (hdivisor.modEq σ)
  rw [← quotientFix_eq] at hfix
  rw [hcarry.eval, hneeded.eval, hsubtract.eval, add_assoc]
  refine (hupper.add hfix).trans (Int.modEq_of_dvd ⟨0, ?_⟩)
  rw [← remainder_eq (hx.inRange σ)]
  ring

end Bits

end IntCircuit
