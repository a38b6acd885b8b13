import IntCircuit.Proofs.Bits.Divide
import IntCircuit.Proofs.Checked.Ring
import IntCircuit.Proofs.Circuit.History
import IntCircuit.Proofs.Word.Basic

/-!
# The partial remainders of a division

The ring of a division holds the partial remainders of a division of integers. Each comes from the
one before by doubling it and taking the divisor off, moved up by the bitwidth, or adding it, as the
digit says. None is further from zero than the moved divisor, so the ring has room for all of them;
and the last one reaches the moved divisor only if one before it was zero.

## Main definitions

* `Ring.Keeps`: a ring after so many rounds, with the partial remainders so far
* `Ring.Ends`: a ring after all rounds

## Main results

* `remainderAfter_last_eq_iff`: when the last partial remainder is as far from zero as it can be
* `Ring.Holds.keeps`, `Ring.Holds.ends`: a ring that holds the register of a division
* `Ring.exists_remainders`: the rounds of a division, from any state of a circuit
-/

namespace IntCircuit

variable {b : Nat} {n d : Int}

/-! ## Integers -/

/-- The digits of the quotient, the last one first, are the bits of its number. -/
theorem unsigned_digits (b : Nat) (n d : Int) (rounds : Nat) :
    unsigned ((List.range rounds).reverse.map fun j => sameSign (remainderAfter b n d j) d) =
      quotientAfter b n d rounds := by
  induction rounds with
  | zero => rfl
  | succ rounds ih =>
    rw [List.range_succ, List.reverse_append, List.reverse_singleton, List.singleton_append,
      List.map_cons, unsigned_cons, ih, quotientAfter]

/-- **A round** takes the moved divisor off twice the partial remainder, or adds it. -/
theorem remainderAfter_step (b : Nat) (n d : Int) (rounds : Nat) :
    remainderAfter b n d (rounds + 1) =
      if sameSign (remainderAfter b n d rounds) d then
        2 * remainderAfter b n d rounds - 2 ^ b * d
      else 2 * remainderAfter b n d rounds + 2 ^ b * d := by
  rw [remainderAfter]
  cases sameSign (remainderAfter b n d rounds) d <;>
    simp only [digitValue, bitValue_true, bitValue_false, if_true, Bool.false_eq_true, if_false] <;>
    ring

/-- **The last partial remainder is the moved divisor or its opposite** if and only if one before it
is zero. -/
theorem remainderAfter_last_eq_iff (hn : InRange b n) (hd : d ≠ 0) :
    (remainderAfter b n d b = 2 ^ b * d ∨ remainderAfter b n d b = -(2 ^ b * d)) ↔
      ∃ i < b, remainderAfter b n d i = 0 := by
  have habs : |2 ^ b * d| = 2 ^ b * |d| := by rw [abs_mul, abs_of_pos (by positivity)]
  constructor
  · intro hlast
    -- as long as no partial remainder is zero, all are nearer to zero
    by_contra hnone
    have hlt := abs_remainderAfter_lt (b := b) (hn.abs_lt_mul hd) b fun i hi hzero =>
      hnone ⟨i, hi, hzero⟩
    rw [← habs] at hlt
    rcases hlast with hlast | hlast
    · rw [hlast] at hlt
      exact lt_irrefl _ hlt
    · rw [hlast, abs_neg] at hlt
      exact lt_irrefl _ hlt
  · rintro ⟨i, hi, hzero⟩
    have hlast := remainderAfter_of_zero hd hzero (b - (i + 1))
    rw [Nat.add_sub_cancel' (show i + 1 ≤ b from hi)] at hlast
    rcases abs_cases d with ⟨h, -⟩ | ⟨h, -⟩
    · exact .inr (by rw [hlast, h])
    · exact .inl (by rw [hlast, h]; ring)

theorem decode_replicate_append (count : Nat) {upper : List Bool} (h : upper ≠ []) :
    decode (List.replicate count false ++ upper) = 2 ^ count * decode upper := by
  induction count with
  | zero => simp
  | succ count ih =>
    have hne : List.replicate count false ++ upper ≠ [] := by simp [h]
    rw [List.replicate_succ, List.cons_append, decode_cons hne, ih, pow_succ]
    simp only [Bool.false_eq_true, if_false]
    ring

/-! ## The ring -/

namespace Ring

/-- After so many rounds under an assignment, the ring reads as the partial remainder `R rounds` of
a division of `n` by `d`. Each digit has told how its partial remainder became the next one, and
each test tells whether its partial remainder was zero. -/
structure Keeps (b : Nat) (n d : Int) (R : Nat → Int) (σ : Nat → Bool) (rounds : Nat) (r : Ring) :
    Prop where
  start : R 0 = n
  register : r.register.denote σ = R rounds
  digit : ∀ j < rounds, ∃ digit, r.quotient[b - j - 1]? = some digit ∧
    R (j + 1) = if digit.eval σ then 2 * R j - 2 ^ b * d else 2 * R j + 2 ^ b * d
  nonzero : ∀ j < rounds, ∃ test, r.nonzero[j]? = some test ∧ (test.eval σ = false ↔ R j = 0)
  bound : d ≠ 0 → ∀ j ≤ rounds, |R j| ≤ 2 ^ b * |d|
  inRange : ∀ j ≤ rounds, InRange (b * 2 + 1) (R j)

/-- After all rounds under an assignment, the first slots of the ring read as the last partial
remainder without its zeros, which are in the other slots. -/
structure Ends (b : Nat) (d : Int) (R : Nat → Int) (σ : Nat → Bool) (r : Ring) : Prop where
  /-- The bit of the register at the bitwidth is in the first slot. -/
  first : (r.low + b) % (b * 2 + 1) = 0
  dvd : (2 : Int) ^ b ∣ R b
  upper : Bits.denote σ (r.slots.take (b + 1)) = R b / 2 ^ b
  lower : r.slots.drop (b + 1) = List.replicate b (.const false)
  overshoot : d ≠ 0 → ((R b = 2 ^ b * d ∨ R b = -(2 ^ b * d)) ↔ ∃ i < b, R i = 0)

end Ring

variable {c : Circuit} {m n : (Nat → Bool) → Int} {rounds : Nat} {r : Ring} {p : Rounds}

/-- The digits of the rounds, the last one first. -/
theorem Rounds.Inv.map_digits {n : (Nat → Bool) → Int} (h : p.Inv b m n rounds c)
    (σ : Nat → Bool) :
    p.digits.map (Node.eval σ) = (List.range rounds).reverse.map fun j =>
      sameSign (remainderAfter b (m σ) (n σ) j) (n σ) := by
  have hlength : (p.digits.map (Node.eval σ)).length = rounds := by
    rw [List.length_map, h.digits.length]
  have hlength' : ((List.range rounds).reverse.map fun j =>
      sameSign (remainderAfter b (m σ) (n σ) j) (n σ)).length = rounds := by simp
  refine unsigned_inj (hlength.trans hlength'.symm) ?_
  -- numbers of so few bits agree if they do up to a power of two
  have hmod := h.digits.modEq σ
  rw [← unsigned_digits] at hmod
  have hlt := unsigned_lt (p.digits.map (Node.eval σ))
  have hlt' := unsigned_lt ((List.range rounds).reverse.map fun j =>
    sameSign (remainderAfter b (m σ) (n σ) j) (n σ))
  rw [hlength] at hlt
  rw [hlength'] at hlt'
  rwa [Int.ModEq, Int.emod_eq_of_lt (unsigned_nonneg _) hlt,
    Int.emod_eq_of_lt (unsigned_nonneg _) hlt'] at hmod

namespace Ring.Holds

/-- The digit of a round is at its place in the quotient. -/
theorem getElem?_quotient (h : r.Holds b rounds p) (hle : rounds ≤ b) {j : Nat} (hj : j < rounds) :
    r.quotient[b - j - 1]? = p.digits[rounds - 1 - j]? := by
  have hzeros : (List.replicate (b - rounds) (Node.const false)).length = b - rounds :=
    List.length_replicate
  rw [h.quotient, List.getElem?_append_right (by omega), hzeros]
  congr 1
  omega

/-- **A ring that holds the register of a division** reads as its partial remainder. -/
theorem keeps (h : r.Holds b rounds p) (hp : p.Inv b m n rounds c) (hm : ∀ σ, InRange b (m σ))
    (hn : ∀ σ, InRange b (n σ)) (hle : rounds ≤ b) (σ : Nat → Bool) :
    r.Keeps b (m σ) (n σ) (remainderAfter b (m σ) (n σ)) σ rounds := by
  refine ⟨rfl, ?_, fun j hj => ?_, fun j hj => ?_, fun hd j _ => ?_, fun j hj => ?_⟩
  · rw [h.register]
    exact hp.denote hm hn hle σ
  · have hlt : rounds - 1 - j < p.digits.length := by
      rw [h.count]
      omega
    refine ⟨p.digits[rounds - 1 - j], ?_, ?_⟩
    · rw [h.getElem?_quotient hle hj, List.getElem?_eq_getElem hlt]
    · have hdigit : (p.digits[rounds - 1 - j]).eval σ =
          sameSign (remainderAfter b (m σ) (n σ) j) (n σ) := by
        have hmap := congrArg (fun values => values[rounds - 1 - j]?) (hp.map_digits σ)
        have hback : rounds - 1 - (rounds - 1 - j) = j := by omega
        simpa [hlt, hback, show rounds - 1 - j < rounds by omega] using hmap
      rw [hdigit]
      exact remainderAfter_step b (m σ) (n σ) j
  · have hmap := congrArg (fun values => values[j]?) (hp.nonzero.eval σ)
    simp only [List.getElem?_map, List.getElem?_range hj, Option.map_some] at hmap
    obtain ⟨test, htest, heval⟩ := Option.map_eq_some_iff.mp hmap
    refine ⟨test, by rw [h.nonzero, htest], ?_⟩
    rw [heval, decide_eq_false_iff_not, not_not]
  · exact abs_remainderAfter_le ((hm σ).abs_lt_mul hd).le j
  · rw [Nat.mul_comm]
    exact inRange_remainderAfter (hm σ) (hn σ) (hj.trans hle)

/-- **After all rounds** the last partial remainder is in the first slots, without its zeros. -/
theorem ends (h : r.Holds b b p) (hp : p.Inv b m n b c) (hm : ∀ σ, InRange b (m σ))
    (hn : ∀ σ, InRange b (n σ)) (σ : Nat → Bool) :
    r.Ends b (n σ) (remainderAfter b (m σ) (n σ)) σ := by
  have hsize := h.size
  have hlower : r.slots.drop (b + 1) = List.replicate b (.const false) := by
    have hlength : (r.slots.drop (b + 1)).length = b := by
      rw [List.length_drop]
      omega
    rw [← h.zeros, h.register_last, List.take_left' hlength]
  have hupper : (r.slots.take (b + 1)).map (Node.eval σ) ≠ [] := by
    apply List.ne_nil_of_length_pos
    rw [List.length_map, List.length_take]
    omega
  have hvalue : remainderAfter b (m σ) (n σ) b = 2 ^ b * Bits.denote σ (r.slots.take (b + 1)) := by
    rw [← hp.denote hm hn (Nat.le_refl b) σ, h.register_last, hlower, Bits.denote, List.map_append,
      List.map_replicate, Node.eval_const, decode_replicate_append b hupper, Bits.denote]
  refine ⟨h.low, ⟨_, hvalue⟩, ?_, hlower, remainderAfter_last_eq_iff (hm σ)⟩
  rw [hvalue, Int.mul_ediv_cancel_left _ (by positivity)]

end Ring.Holds

/-- **The partial remainders of a division.** On a circuit in any state, and for integers of any
width, the rounds of a division meet no breach and make the gates of the rounds over lists. There is
a sequence of integers for every assignment such that after so many rounds the ring keeps them, and
after all rounds ends with the last one, unless the count of labels has come round. -/
theorem Ring.exists_remainders (hc : c.Reachable) {x y : Bits} (hx : c.Denotes x m)
    (hy : c.Denotes y n) :
    ∃ R : (Nat → Bool) → Nat → Int, ∀ rounds ≤ c.bitwidth, ∃ r p d,
      (Checked.divisionRounds c.bitwidth x y rounds).run.run c = (.ok r, d) ∧
      ((List.range rounds).foldlM (Rounds.step c.bitwidth (y.extend (c.bitwidth + 1)))
        (Rounds.start c.bitwidth x)).run c = (p, d) ∧
      r.Holds c.bitwidth rounds p ∧
      (d.maxLabel + 1 < labelModulus → ∀ σ,
        r.Keeps c.bitwidth (m σ) (n σ) (R σ) σ rounds ∧
          (rounds = c.bitwidth → r.Ends c.bitwidth (n σ) (R σ) σ)) := by
  refine ⟨fun σ => remainderAfter c.bitwidth (m σ) (n σ), fun rounds hle => ?_⟩
  obtain ⟨r, hrun, -, hholds⟩ := Checked.follows_divisionRounds ⟨hx.width_pos, hx.width_le⟩
    ⟨hy.width_pos, hy.width_le⟩ hle c rfl
  refine ⟨r, _, _, hrun, rfl, hholds, fun hl σ => ?_⟩
  -- labels that last to the end have lasted before
  have hgrown := Build.Grows.grown (m := (List.range rounds).foldlM
    (Rounds.step c.bitwidth (y.extend (c.bitwidth + 1))) (Rounds.start c.bitwidth x)) c
  have hsound := hc.sound (Circuit.maxLabel_lt_mono hgrown hl)
  have hdivisor := hy.extend (w := c.bitwidth + 1) (Nat.le_succ_of_le hy.width_le)
  obtain ⟨-, -, hinv⟩ := Build.Ensures.foldlM_range (Rounds.Inv c.bitwidth m n) hsound
    (Rounds.inv_start hx) (fun i p d hi hcd hd hp => Rounds.ensures_step hd (hdivisor.mono hcd)
      hx.inRange hy.inRange (Nat.lt_of_lt_of_le hi hle) hp) hl
  refine ⟨hholds.keeps hinv hx.inRange hy.inRange hle σ, ?_⟩
  rintro rfl
  exact hholds.ends hinv hx.inRange hy.inRange σ

/-- The partial remainders of two variable integers of three and two bits, after all rounds. -/
theorem Ring.exists_remainders_of_five_variables :
    ∃ (c : Circuit) (R : (Nat → Bool) → Nat → Int) (r : Ring) (d : Circuit),
      Circuit.create 0 5 ⟨3, true⟩ = .ok c ∧
      (Checked.divisionRounds 3 [.var 1, .var 2, .var 3] [.var 4, .var 5] 3).run.run c =
        (.ok r, d) ∧
      ∀ σ, r.Keeps 3 (decode [σ 1, σ 2, σ 3]) (decode [σ 4, σ 5]) (R σ) σ 3 ∧
        r.Ends 3 (decode [σ 4, σ 5]) (R σ) σ := by
  let c : Circuit := ⟨0, 5, 3, true, by decide, by decide, by decide, #[], ∅⟩
  have hx := c.denotes_range (show 0 < 1 by decide) (show 1 < 4 by decide) (by decide) (by decide)
  have hy := c.denotes_range (show 0 < 4 by decide) (show 4 < 6 by decide) (by decide) (by decide)
  have hcreate : Circuit.create 0 5 ⟨3, true⟩ = .ok c := rfl
  obtain ⟨R, hR⟩ := Ring.exists_remainders (.of_create hcreate) hx hy
  obtain ⟨r, p, d, hrun, hplain, -, hkeeps⟩ := hR 3 (Nat.le_refl 3)
  obtain rfl : _ = d := congrArg Prod.snd hplain
  have hends := hkeeps (by decide +kernel)
  exact ⟨c, R, r, _, hcreate, hrun, fun σ => ⟨(hends σ).1, (hends σ).2 rfl⟩⟩

end IntCircuit
