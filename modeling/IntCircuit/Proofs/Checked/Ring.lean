import IntCircuit.Bits.Divide
import IntCircuit.Proofs.Checked.Add

/-!
# The register of a division in a ring of slots

A division doubles its register in every round. Where the register is kept in as many slots as it
has bits, nothing is moved for that: the slot of the sign becomes that of the lowest bit, and the
register is read from one slot further down on and round the end. The number of slots is odd, two
for each bit of the bitwidth and one more, and after all rounds the upper part of the register is in
the first slots.

## Main definitions

* `Ring`, `Ring.register`: the slots, and the register as it is read
* `Ring.step`, `Checked.divisionRounds`: one round, and any number of rounds
* `Ring.Holds`: the slots after so many rounds

## Main results

* `Ring.register_shift`: the register is doubled by moving to the next slot
* `Ring.follows_step`: what one round preserves
* `Checked.follows_divisionRounds`: what rounds preserve
* `Ring.Holds.register_last`: where the register is after all rounds
-/

namespace IntCircuit

open Checked

variable {α : Type} {b : Nat} {x y : Bits}

theorem rotateLeft_eq_rotate (items : List α) (i : Nat) : items.rotateLeft i = items.rotate i :=
  match items with
  | [] => by simp [List.rotateLeft]
  | [_] => by simp [List.rotateLeft]
  | _ :: _ :: _ => by
    rw [List.rotate_eq_drop_append_take_mod]
    simp [List.rotateLeft]

theorem set_last (items : List α) (hpos : 0 < items.length) (a : α) :
    items.set (items.length - 1) a = items.dropLast ++ [a] := by
  have hne := List.ne_nil_of_length_pos hpos
  have hset (init : List α) (last : α) :
      (init ++ [last]).set ((init ++ [last]).length - 1) a = (init ++ [last]).dropLast ++ [a] := by
    simp
  simpa only [List.dropLast_concat_getLast hne] using hset items.dropLast (items.getLast hne)

/-- What the rounds of a division keep. -/
structure Ring where
  /-- The partial remainder. -/
  slots : Bits
  /-- The slot of its lowest bit. -/
  low : Nat
  /-- The digits of the quotient, the lowest first; false where there is none yet. -/
  quotient : Bits
  /-- For each partial remainder before a round, whether it is not zero. -/
  nonzero : List Node

namespace Ring

/-- The partial remainder, the lowest bit first. -/
def register (r : Ring) : Bits :=
  r.slots.rotate r.low

/-- The slots before the first round. -/
def start (bitwidth : Nat) (x : Bits) : Checked Ring := do
  let slots ← extend x (bitwidth * 2 + 1)
  return ⟨slots, 0, List.replicate bitwidth (.const false), []⟩

/-- One position of adding the divisor if the digit does not hold, or its complement if it does. -/
def addDigit (y : Bits) (digit : Node) (place j : Nat) (s : Bits × Node) :
    Checked (Bits × Node) := do
  addInto place (← Build.xor digit (← bit y j)) s

/-- All positions, from a slot on and round. -/
def addDivisor (bitwidth : Nat) (y : Bits) (digit : Node) (place : Nat) (slots : Bits) :
    Checked Bits := do
  let s ← (List.range (bitwidth + 1)).foldlM (fun (s : (Bits × Node) × Nat) j => do
    let added ← addDigit y digit s.2 j s.1
    return (added, (s.2 + 1) % (bitwidth * 2 + 1))) ((slots, digit), place)
  return s.1.1

/-- Round number `i`, with a divisor and its sign. -/
def step (bitwidth : Nat) (y : Bits) (sign : Node) (r : Ring) (i : Nat) : Checked Ring := do
  let nonzero ← Build.anyOf r.slots
  let top ← minus (r.low + (bitwidth * 2 + 1)) 1
  let high := top % (bitwidth * 2 + 1)
  let digit ← Build.iff (← read r.slots high) sign
  let left ← minus bitwidth i
  let quotient ← write r.quotient (← minus left 1) digit
  let slots ← write r.slots high (.const false)
  let slots ← addDivisor bitwidth y digit ((high + bitwidth) % (bitwidth * 2 + 1)) slots
  return ⟨slots, high, quotient, r.nonzero ++ [nonzero]⟩

end Ring

/-- The first rounds of a division. -/
def Checked.divisionRounds (bitwidth : Nat) (x y : Bits) (count : Nat) : Checked Ring := do
  let r ← Ring.start bitwidth x
  let sign ← bit y bitwidth
  (List.range count).foldlM (Ring.step bitwidth y sign) r

namespace Ring

/-- **The register is doubled** by moving to the next slot down, which held the sign. -/
theorem register_shift {slots : Bits} {low high : Nat} (hpos : 0 < slots.length)
    (hhigh : high = (low + slots.length - 1) % slots.length) (n : Node) :
    slots[high]? = (slots.rotate low).getLast? ∧
      (slots.set high n).rotate high = n :: (slots.rotate low).dropLast := by
  have hplace : high = (slots.length - 1 + low) % slots.length := by
    rw [hhigh]
    congr 1
    omega
  have hlast : slots.length - 1 < slots.length := Nat.sub_one_lt hpos.ne'
  constructor
  · rw [List.getLast?_eq_getElem?, List.length_rotate, List.getElem?_rotate hlast, ← hplace]
  · -- read from the slot that was the lowest, the new bit is the last
    have hback : (slots.set high n).rotate low = (slots.rotate low).dropLast ++ [n] := by
      rw [hplace, set_rotate slots low _ hlast, ← List.length_rotate slots low]
      exact set_last _ (by rwa [List.length_rotate]) n
    have hmod : (high + 1) % slots.length = low % slots.length := by
      rw [hplace, Nat.mod_add_mod, show slots.length - 1 + low + 1 = low + slots.length by omega,
        Nat.add_mod_right]
    apply List.rotate_injective 1
    beta_reduce
    rw [List.rotate_rotate, List.rotate_cons_succ, List.rotate_zero, ← hback]
    have hlength : (slots.set high n).length = slots.length := List.length_set
    rw [← List.rotate_mod _ (high + 1), ← List.rotate_mod _ low, hlength, hmod]

/-- A place that is counted on in every round is a function of the round. -/
theorem foldlM_place {σ : Type} (place next : Nat → Nat)
    (hnext : ∀ j, next (place j) = place (j + 1)) (f : Nat → Nat → σ → Checked σ) (k n : Nat)
    (s : σ) :
    (List.range' k n).foldlM (fun (s : σ × Nat) j => do
        let a ← f s.2 j s.1
        return (a, next s.2)) (s, place k) =
      (do
        let a ← (List.range' k n).foldlM (fun s j => f (place j) j s) s
        return (a, place (k + n))) := by
  induction n generalizing k s with
  | zero => simp
  | succ n ih =>
    simp only [List.range'_succ, List.foldlM_cons, bind_assoc, pure_bind, hnext]
    refine bind_congr fun a => ?_
    rw [ih, Nat.add_assoc k 1 n, Nat.add_comm 1 n]

/-- Adding the divisor to the upper part of the register. -/
theorem follows_addDivisor (hy : y.Sized b) (digit : Node) {slots : Bits} {high : Nat}
    (hsize : slots.length = b * 2 + 1) {doubled : Bits} (hview : slots.rotate high = doubled) :
    Follows b (addDivisor b y digit ((high + b) % (b * 2 + 1)) slots)
      (Bits.ripple (Build.xor digit) ((doubled.drop b).zip (y.extend (b + 1))) digit)
      fun s upper => s.rotate high = doubled.take b ++ upper ∧ upper.length = b + 1 := by
  have hdoubled : doubled.length = b * 2 + 1 := by rw [← hview, List.length_rotate, hsize]
  have hlow : (doubled.take b).length = b := List.length_take_of_le (by omega)
  have hhigh : (doubled.drop b).length = b + 1 := by
    rw [List.length_drop]
    omega
  have hyle : y.length ≤ b + 1 := Nat.le_succ_of_le hy.le
  let place (j : Nat) : Nat := (high + b + j) % (b * 2 + 1)
  have hnext (j : Nat) : (place j + 1) % (b * 2 + 1) = place (j + 1) := Nat.mod_add_mod _ _ _
  have hplace (j : Nat) (_ : j < (doubled.drop b).length) :
      place (0 + j) = ((doubled.take b).length + j + high) % slots.length := by
    simp only [place, hlow, hsize]
    congr 1
    omega
  have hys : (doubled.drop b).length ≤ (y.extend (b + 1)).length := by
    rw [hhigh, Bits.length_extend_of_le hyle]
  let make (j : Nat) : Checked Node := do Build.xor digit (← bit y j)
  have hmake (j : Nat) (hj : j < (doubled.drop b).length) :
      Follows b (make (0 + j)) (Build.xor digit (y.extend (b + 1))[j]) Eq := by
    rw [Nat.zero_add]
    exact follows_gate_bit hy hyle _
  have hloop := follows_addInto (hview.trans (List.take_append_drop b doubled).symm) hplace hys
    hmake digit
  have hplaces := foldlM_place place (fun k => (k + 1) % (b * 2 + 1)) hnext (addDigit y digit) 0
    (b + 1) (slots, digit)
  have hstart : (high + b) % (b * 2 + 1) = place 0 := rfl
  rw [addDivisor, List.range_eq_range', hstart, hplaces, bind_assoc]
  simp only [make, hhigh, bind_assoc] at hloop
  simp only [addDigit, pure_bind]
  exact hloop.bind_left fun s upper hs => .pure hs

/-- The slots after so many rounds, beside the register of these rounds. -/
structure Holds (bitwidth rounds : Nat) (r : Ring) (p : Rounds) : Prop where
  size : r.slots.length = bitwidth * 2 + 1
  low : (r.low + rounds) % (bitwidth * 2 + 1) = 0
  register : r.register = p.register
  /-- What has come in at the lower end. -/
  zeros : p.register.take rounds = List.replicate rounds (.const false)
  count : p.digits.length = rounds
  quotient : r.quotient = List.replicate (bitwidth - rounds) (.const false) ++ p.digits
  nonzero : r.nonzero = p.nonzero

theorem holds_start (hx : x.Sized b) :
    ∃ r, start b x = pure r ∧ r.Holds b 0 (Rounds.start b x) := by
  have hlength : (x.extend (b * 2 + 1)).length = b * 2 + 1 :=
    Bits.length_extend_of_le (by have := hx.le; omega)
  refine ⟨_, by rw [start, extend_eq hx.pos, pure_bind], hlength, ?_, ?_, rfl, rfl, ?_, rfl⟩
  · exact Nat.zero_mod _
  · rw [register, List.rotate_zero, Rounds.start, Nat.mul_comm]
  · exact (List.append_nil _).symm

namespace Holds

variable {i : Nat} {r : Ring} {p : Rounds}

theorem length_register (h : r.Holds b i p) : p.register.length = b * 2 + 1 := by
  rw [← h.register, Ring.register, List.length_rotate, h.size]

/-- In the order of the slots, the register begins where it began at first. -/
theorem rotateLeft (h : r.Holds b i p) : p.register.rotateLeft i = r.slots := by
  have hmod : (r.low + i) % r.slots.length = 0 := h.size ▸ h.low
  rw [← h.register, Ring.register, rotateLeft_eq_rotate, List.rotate_rotate, ← List.rotate_mod,
    hmod, List.rotate_zero]

end Holds

theorem getLast?_eq_sign (hx : 0 < x.length) : x.getLast? = some x.sign := by
  rw [List.getLast?_eq_getElem?, Bits.sign, Bits.bit_of_lt (Nat.sub_one_lt hx.ne')]
  exact List.getElem?_eq_getElem _

theorem sign_extend {width : Nat} (hx : x.length ≤ width + 1) :
    (x.extend (width + 1)).sign = x.bit width := by
  rw [Bits.sign, Bits.length_extend_of_le hx]
  exact bit_extend hx (Nat.lt_succ_self width)

/-- A digit goes in front of those before. -/
theorem set_quotient {i : Nat} (hi : i < b) (digits : Bits) (digit : Node) :
    (List.replicate (b - i) (Node.const false) ++ digits).set (b - i - 1) digit =
      List.replicate (b - (i + 1)) (.const false) ++ digit :: digits := by
  obtain ⟨k, rfl⟩ : ∃ k, b = i + 1 + k := ⟨b - (i + 1), by omega⟩
  have hleft : i + 1 + k - i = k + 1 := by omega
  have hrest : i + 1 + k - (i + 1) = k := by omega
  rw [hleft, hrest, Nat.add_sub_cancel, List.replicate_succ', List.append_assoc,
    List.set_append_right _ _ (by rw [List.length_replicate]), List.length_replicate, Nat.sub_self]
  rfl

/-- After one round more the register begins one slot further down, with one more zero, and there is
one more digit. -/
theorem Holds.next {i : Nat} (hi : i < b) {r : Ring} {p : Rounds} (h : r.Holds b i p) {high : Nat}
    (hhigh : high = (r.low + (b * 2 + 1) - 1) % (b * 2 + 1)) {slots upper : Bits}
    (hview : slots.rotate high = (.const false :: p.register.dropLast).take b ++ upper)
    (hupper : upper.length = b + 1) (digit nonzero : Node) :
    Holds b (i + 1) ⟨slots, high, r.quotient.set (b - i - 1) digit, r.nonzero ++ [nonzero]⟩
      ⟨(.const false :: p.register.dropLast).take b ++ upper, digit :: p.digits,
        p.nonzero ++ [nonzero]⟩ := by
  have hlength : (Node.const false :: p.register.dropLast).length = b * 2 + 1 := by
    rw [List.length_cons, List.length_dropLast, h.length_register]
    rfl
  refine ⟨?_, ?_, hview, ?_, congrArg Nat.succ h.count, ?_, congrArg (· ++ [nonzero]) h.nonzero⟩
  · rw [← List.length_rotate slots high, hview, List.length_append, List.length_take, hlength,
      hupper]
    omega
  · have hlow := h.low
    dsimp only
    rw [hhigh, Nat.mod_add_mod,
      show r.low + (b * 2 + 1) - 1 + (i + 1) = r.low + i + (b * 2 + 1) by omega,
      Nat.add_mod_right, hlow]
  · dsimp only
    rw [List.take_append_of_le_length (by rw [List.length_take, hlength]; omega), List.take_take,
      Nat.min_eq_left hi, List.take_succ_cons, List.dropLast_eq_take, List.take_take,
      Nat.min_eq_left (by rw [h.length_register]; omega), h.zeros, List.replicate_succ]
  · dsimp only
    rw [h.quotient, set_quotient hi]

/-- **One round in slots** makes the gates of one round, and holds what it leaves. -/
theorem follows_step (hy : y.Sized b) {i : Nat} (hi : i < b) {r : Ring} {p : Rounds}
    (h : r.Holds b i p) :
    Follows b (step b y (y.bit b) r i) (Rounds.step b (y.extend (b + 1)) p i)
      (Holds b (i + 1)) := by
  have hpos : 0 < r.slots.length := h.size ▸ Nat.succ_pos _
  have hppos : 0 < p.register.length := h.length_register ▸ Nat.succ_pos _
  let high : Nat := (r.low + (b * 2 + 1) - 1) % (b * 2 + 1)
  have hhigh : high = (r.low + r.slots.length - 1) % r.slots.length := by rw [h.size]
  have hlt : high < r.slots.length := hhigh ▸ Nat.mod_lt _ hpos
  obtain ⟨hlast, hdoubled⟩ := register_shift hpos hhigh (.const false)
  have hregister : r.slots.rotate r.low = p.register := h.register
  rw [hregister, getLast?_eq_sign hppos] at hlast
  rw [hregister] at hdoubled
  have hplace : b - i - 1 < r.quotient.length := by
    rw [h.quotient, List.length_append, List.length_replicate, h.count]
    omega
  rw [step, Rounds.step, h.rotateLeft]
  refine .gate_bind fun nonzero => ?_
  rw [minus_of_le (by omega), pure_bind]
  dsimp only
  rw [read_eq hlast, pure_bind, sign_extend (Nat.le_succ_of_le hy.le)]
  refine .gate_bind fun digit => ?_
  rw [minus_of_le hi.le, pure_bind, minus_of_le (by omega), pure_bind, write_of_lt hplace,
    pure_bind, write_of_lt hlt, pure_bind]
  have hset : (r.slots.set high (.const false)).length = b * 2 + 1 := by
    rw [List.length_set, h.size]
  exact (follows_addDivisor hy digit hset hdoubled).bind fun slots upper hslots =>
    .pure (h.next hi rfl hslots.1 hslots.2 digit nonzero)

end Ring

/-- **Rounds in slots** make the gates of the rounds, and hold what they leave. -/
theorem Checked.follows_divisionRounds (hx : x.Sized b) (hy : y.Sized b) {count : Nat}
    (hcount : count ≤ b) :
    Follows b (Checked.divisionRounds b x y count)
      ((List.range count).foldlM (Rounds.step b (y.extend (b + 1))) (Rounds.start b x))
      (Ring.Holds b count) := by
  obtain ⟨r, hr, hstart⟩ := Ring.holds_start hx
  rw [Checked.divisionRounds, hr, pure_bind, bit_eq hy.pos, pure_bind]
  exact Follows.foldlM_range (Ring.Holds b) hstart fun i s t hi hs =>
    Ring.follows_step hy (Nat.lt_of_lt_of_le hi hcount) hs

/-- **After all rounds** the upper part of the register is in the first slots, in order. -/
theorem Ring.Holds.register_last {r : Ring} {p : Rounds} (h : r.Holds b b p) :
    p.register = r.slots.drop (b + 1) ++ r.slots.take (b + 1) := by
  have hround : (b + 1 + b) % (b * 2 + 1) = 0 := by
    rw [show b + 1 + b = b * 2 + 1 by omega, Nat.mod_self]
  have hlow : r.low % (b * 2 + 1) = (b + 1) % (b * 2 + 1) :=
    Nat.ModEq.add_right_cancel' b (h.low.trans hround.symm)
  have hle : b + 1 ≤ r.slots.length := h.size ▸ by omega
  rw [← h.register, Ring.register, ← List.rotate_mod, h.size, hlow, ← h.size, List.rotate_mod,
    List.rotate_eq_drop_append_take hle]

end IntCircuit
