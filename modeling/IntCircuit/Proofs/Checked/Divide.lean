import IntCircuit.Proofs.Checked.Ring

/-!
# Quotients and remainders, checked

After all rounds a division takes for granted that the upper part of the register is in the first
slots. From there on it reads these slots by their numbers: the last of them holds the sign, and the
remainder is corrected in them.

## Main definitions

* `Checked.correction`, `Checked.addend`: whether and how the result is off by one divisor
* `Checked.div`, `Checked.mod`: quotient and remainder

## Main results

* `Checked.follows_correction`, `Checked.follows_correct`: the correction
* `Checked.follows_div`, `Checked.follows_mod`: the operations
-/

namespace IntCircuit.Checked

variable {b : Nat} {x y : Bits}

/-- The correction after all rounds. -/
def correction (bitwidth : Nat) (x y : Bits) (r : Ring) : Checked Correction := do
  let someZero ← Build.not (← Build.allOf r.nonzero)
  let nonzero ← Build.anyOf r.slots
  let differ ← Build.xor (← read r.slots bitwidth) (← bit x bitwidth)
  let needed ← Build.or someZero (← Build.and differ nonzero)
  let subtract ← Build.iff (← read r.slots bitwidth) (← bit y bitwidth)
  return ⟨needed, subtract⟩

/-- All rounds, and what is taken for granted after them. -/
def allRounds (bitwidth : Nat) (x y : Bits) : Checked Ring := do
  let r ← divisionRounds bitwidth x y bitwidth
  require ((r.low + bitwidth) % (bitwidth * 2 + 1) = 0)
  return r

/-- The quotient of two integers. The digits are moved up by going round, for which there has to be
one, and the slot of the lowest is overwritten. -/
def div (x y : Bits) : Checked Bits := do
  let c ← get
  let r ← allRounds c.bitwidth x y
  let fix ← correction c.bitwidth x y r
  require (1 ≤ r.quotient.length)
  let moved ← write r.quotient.rotateRight 0 (.const true)
  let down ← Build.and fix.needed (← Build.not fix.subtract)
  let up ← Build.and fix.needed fix.subtract
  let s ← moved.foldlM (fun s old => addNext old down s) ([], up)
  finish s.1

/-- What is added to a slot when the remainder is corrected. -/
def addend (fix : Correction) (n : Node) : Build Node := do
  Build.and fix.needed (← Build.xor fix.subtract n)

instance (fix : Correction) (n : Node) : Build.Grows (addend fix n) := by
  rw [addend]
  infer_instance

/-- The remainder of two integers, corrected in the slots of the upper part. -/
def mod (x y : Bits) : Checked Bits := do
  let c ← get
  let r ← allRounds c.bitwidth x y
  let fix ← correction c.bitwidth x y r
  let carryIn ← Build.and fix.needed fix.subtract
  let s ← (r.slots.take (c.bitwidth + 1)).zipIdx.foldlM
    (fun s slot => do addNext slot.1 (← addend fix (← bit y slot.2)) s) ([], carryIn)
  finish ((s.1 ++ r.slots.drop (c.bitwidth + 1)).take c.bitwidth)

/-- The sign of the register is in the last slot of its upper part. -/
theorem read_sign {r : Ring} {p : Rounds} (h : r.Holds b b p) :
    (read r.slots b : Checked Node) = pure p.register.sign := by
  have hsize := h.size
  have hlast := Ring.getLast?_eq_sign (x := p.register) (by rw [h.length_register]; omega)
  have hlength : (r.slots.take (b + 1)).length = b + 1 := List.length_take_of_le (by omega)
  have hne : r.slots.take (b + 1) ≠ [] := List.ne_nil_of_length_pos (by omega)
  rw [h.register_last, List.getLast?_append_of_ne_nil _ hne, List.getLast?_eq_getElem?, hlength,
    Nat.add_sub_cancel, List.getElem?_take, if_pos (Nat.lt_succ_self b), ← h.register_last] at hlast
  exact read_eq hlast

theorem follows_correction (hx : x.Sized b) (hy : y.Sized b) {r : Ring} {p : Rounds}
    (h : r.Holds b b p) :
    Follows b (correction b x y r) (Bits.correction b x (y.extend (b + 1)) p) Eq := by
  rw [correction, Bits.correction, h.rotateLeft, ← h.nonzero, read_sign h, bit_eq hx.pos,
    bit_eq hy.pos, Ring.sign_extend (Nat.le_succ_of_le hy.le),
    Bits.bit_of_le (Nat.le_succ_of_le hx.le)]
  simp only [pure_bind]
  exact .gate_bind fun _ => .gate_bind fun _ => .gate_bind fun _ => .gate_bind fun _ =>
    .gate_bind fun _ => .gate_bind fun _ => .gate_bind fun _ => .pure rfl

theorem follows_allRounds (hx : x.Sized b) (hy : y.Sized b) :
    Follows b (allRounds b x y) (Bits.divisionRounds b x (y.extend (b + 1))) (Ring.Holds b b) := by
  refine (follows_divisionRounds hx hy (Nat.le_refl b)).bind_left fun r p h => ?_
  rw [require_of h.low, pure_bind]
  exact .pure h

/-- Going round by one, and the slot of the lowest digit overwritten. -/
theorem write_rotateRight {digits : Bits} (hpos : 0 < digits.length) (n : Node) :
    (write digits.rotateRight 0 n : Checked Bits) = pure (n :: digits.dropLast) := by
  have hset : digits.rotateRight.set 0 n = n :: digits.dropLast := by
    rw [List.rotateRight]
    dsimp only
    split
    next h =>
      obtain ⟨digit, rfl⟩ := List.length_eq_one_iff.mp (Nat.le_antisymm h hpos)
      rfl
    next h =>
      have hmod : 1 % digits.length = 1 := Nat.mod_eq_of_lt (by omega)
      rw [hmod, List.drop_length_sub_one (List.ne_nil_of_length_pos hpos), List.dropLast_eq_take]
      rfl
  have hlength := congrArg List.length hset
  rw [List.length_set] at hlength
  rw [write_of_lt (hlength ▸ Nat.succ_pos _), hset]

theorem follows_div (hx : x.Sized b) (hy : y.Sized b) :
    Follows b (div x y) (Bits.div x y) (Made b) := by
  have hb := Nat.lt_of_lt_of_le hx.pos hx.le
  refine .look fun c hc => .look_plain fun d hd => ?_
  rw [hc, hd]
  refine (follows_allRounds hx hy).bind fun r p h => ?_
  refine (follows_correction hx hy h).bind fun fix _ hfix => ?_
  subst hfix
  have hquotient : r.quotient = p.digits := by
    rw [h.quotient, Nat.sub_self]
    rfl
  have hpos : 0 < p.digits.length := h.count ▸ hb
  have hlength : (Node.const true :: p.digits.dropLast).length = b := by
    rw [List.length_cons, List.length_dropLast, h.count]
    omega
  have hone : 1 ≤ p.digits.length := hpos
  rw [hquotient, require_of hone, pure_bind, write_rotateRight hpos, pure_bind]
  refine .gate_bind fun keep => .gate_bind fun down => .gate_bind fun up => ?_
  have hmake (old : Node) (_ : old ∈ Node.const true :: p.digits.dropLast) :
      Follows b (pure (old, down).2) (pure (old, down).2) Eq := .pure rfl
  have hloop := follows_addNext (fun old => (old, down)) hmake [] up
  rw [hlength] at hloop
  exact hloop.finish_map Prod.fst
    (fun s made hs => ⟨hs.1, (congrArg List.length hs.1).trans hs.2⟩) hb (Nat.le_refl b)

/-- The upper part of the register beside the divisor, counted from its lowest bit. -/
theorem zipIdx_map_bit (hy : y.length ≤ b + 1) {upper : Bits} (hupper : upper.length = b + 1) :
    upper.zipIdx.map (fun p => (p.1, y.bit p.2)) = upper.zip (y.extend (b + 1)) := by
  apply List.ext_getElem
  · simp [hupper, Nat.max_eq_right hy]
  intro i hi _
  simp [getElem_extend hy]

/-- The upper part of the register is in the first slots. -/
theorem drop_register {r : Ring} {p : Rounds} (h : r.Holds b b p) :
    p.register.drop b = r.slots.take (b + 1) := by
  have hsize := h.size
  rw [h.register_last]
  exact List.drop_left' (by rw [List.length_drop]; omega)

/-- The divisor, or nothing, is added to the upper part or subtracted from it. -/
theorem follows_correct (hy : y.Sized b) {upper : Bits} (hupper : upper.length = b + 1)
    (fix : Correction) (carryIn : Node) :
    Follows b (upper.zipIdx.foldlM
        (fun s slot => do addNext slot.1 (← addend fix (← bit y slot.2)) s) ([], carryIn))
      (Bits.ripple (addend fix) (upper.zip (y.extend (b + 1))) carryIn)
      fun s made => s.1 = made ∧ made.length = b + 1 := by
  let make (q : Node × Nat) : Checked Node := do addend fix (← bit y q.2)
  have hmake (q : Node × Nat) (_ : q ∈ upper.zipIdx) :
      Follows b (make q) (addend fix (q.1, y.bit q.2).2) Eq := by
    simp only [make, bit_eq hy.pos, pure_bind]
    exact .gate _
  have hloop := follows_addNext (fun q : Node × Nat => (q.1, y.bit q.2)) hmake [] carryIn
  rw [zipIdx_map_bit (Nat.le_succ_of_le hy.le) hupper, List.length_zipIdx, hupper] at hloop
  simp only [make, bind_assoc] at hloop
  exact hloop

theorem follows_mod (hx : x.Sized b) (hy : y.Sized b) :
    Follows b (mod x y) (Bits.mod x y) (Made b) := by
  have hb := Nat.lt_of_lt_of_le hx.pos hx.le
  refine .look fun c hc => .look_plain fun d hd => ?_
  rw [hc, hd]
  refine (follows_allRounds hx hy).bind fun r p h => ?_
  refine (follows_correction hx hy h).bind fun fix _ hfix => ?_
  subst hfix
  refine .gate_bind fun carryIn => ?_
  have hsize := h.size
  have hupper : (r.slots.take (b + 1)).length = b + 1 := List.length_take_of_le (by omega)
  have hloop := follows_correct hy hupper fix carryIn
  -- the slots beyond the upper part are cut off again
  have htake (made : Bits) (hmade : made.length = b + 1) :
      Made b ((made ++ r.slots.drop (b + 1)).take b) (made.take b) := by
    have hle : b ≤ made.length := by omega
    rw [List.take_append_of_le_length hle]
    exact ⟨rfl, List.length_take_of_le hle⟩
  have hfixed : Follows b _ (_ >>= fun fixed : Bits => pure (fixed.take b))
      fun (s : Bits × Node) z => Made b ((s.1 ++ r.slots.drop (b + 1)).take b) z :=
    hloop.bind_right fun s made hs => .pure (hs.1 ▸ htake made hs.2)
  rw [drop_register h]
  exact hfixed.finish_map (fun s => (s.1 ++ r.slots.drop (b + 1)).take b) (fun _ _ hz => hz) hb
    (Nat.le_refl b)

end IntCircuit.Checked
