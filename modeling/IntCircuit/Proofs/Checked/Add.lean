import IntCircuit.Bits.Add
import IntCircuit.Bits.Multiply
import IntCircuit.Proofs.Checked.Logic
import Mathlib.Data.List.Rotate

/-!
# Sums and products, checked

An addition either puts its sums one behind another, or into the slots of one of its operands, which
may lie anywhere and go round the end of the slots: read from some slot on and round, they are a
list, and the addition is one on that list. A product adds each row into the slots of all rows
before, one slot further up, so that a row ends with the last slot.

## Main definitions

* `Checked.addNext`, `Checked.addInto`: one position of an addition
* `Checked.rippleAdd`, `Checked.neg`, `Checked.abs`, `Checked.signum`: sums and signs
* `Checked.row`, `Checked.signRow`, `Checked.mul`: products

## Main results

* `Checked.follows_addNext`, `Checked.follows_addInto`: all positions of an addition
* `Checked.follows_add`, `Checked.follows_sub`, `Checked.follows_mul`, and so on: the operations
-/

namespace IntCircuit.Checked

variable {b : Nat} {x y : Bits}

/-! ## Additions -/

/-- One position of an addition. The sum goes behind those of lower positions. -/
def addNext (old addend : Node) : Bits × Node → Checked (Bits × Node)
  | (sums, carryIn) => do
    let sum ← Build.sum old addend carryIn
    let carryOut ← Build.carry old addend carryIn
    return (sums ++ [sum], carryOut)

/-- One position of an addition. The sum goes into the slot of the first operand. -/
def addInto (place : Nat) (addend : Node) : Bits × Node → Checked (Bits × Node)
  | (slots, carryIn) => do
    let old ← read slots place
    let sum ← Build.sum old addend carryIn
    let slots ← write slots place sum
    let carryOut ← Build.carry old addend carryIn
    return (slots, carryOut)

/-- All positions of an addition, each sum behind those before. -/
theorem follows_addNext {ι : Type} {items : List ι} {make : ι → Checked Node}
    {addend : Node → Build Node} (pair : ι → Node × Node)
    (hmake : ∀ i ∈ items, Follows b (make i) (addend (pair i).2) Eq) (sums : Bits)
    (carryIn : Node) :
    Follows b (items.foldlM (fun s i => do addNext (pair i).1 (← make i) s) (sums, carryIn))
      (Bits.ripple addend (items.map pair) carryIn)
      fun s made => s.1 = sums ++ made ∧ made.length = items.length := by
  induction items generalizing sums carryIn with
  | nil => exact .pure ⟨(List.append_nil sums).symm, rfl⟩
  | cons i rest ih =>
    rw [List.foldlM_cons, List.map_cons, Bits.ripple, bind_assoc]
    refine (hmake i List.mem_cons_self).bind fun n _ hn => ?_
    subst hn
    simp only [addNext, bind_assoc, pure_bind]
    refine .gate_bind fun sum => .gate_bind fun carryOut => ?_
    have hrest := ih (fun k hk => hmake k (List.mem_cons_of_mem i hk)) (sums ++ [sum]) carryOut
    refine hrest.bind_right fun s made hs => .pure ⟨?_, congrArg Nat.succ hs.2⟩
    rw [hs.1, List.append_assoc, List.singleton_append]

/-- A slot counted from another one and round is a position of the slots read from there. -/
theorem set_rotate {α : Type} (slots : List α) (low k : Nat) (hk : k < slots.length) (a : α) :
    (slots.set ((k + low) % slots.length) a).rotate low = (slots.rotate low).set k a := by
  apply List.ext_getElem (by simp)
  intro j hj _
  have hj' : j < slots.length := by simpa using hj
  have hiff : (k + low) % slots.length = (j + low) % slots.length ↔ k = j := by
    refine ⟨fun h => ?_, fun h => h ▸ rfl⟩
    have h' := Nat.ModEq.add_right_cancel' low h
    rwa [Nat.ModEq, Nat.mod_eq_of_lt hk, Nat.mod_eq_of_lt hj'] at h'
  simp only [List.getElem_rotate, List.getElem_set, List.length_set, hiff]

/-- **An addition into slots** that are read from `low` on and round: it begins behind `front`, and
what it leaves is read in the same way. -/
theorem follows_addInto {slots front xs ys : Bits} {low k : Nat} {place : Nat → Nat}
    {make : Nat → Checked Node} {addend : Node → Build Node}
    (hview : slots.rotate low = front ++ xs)
    (hplace : ∀ i < xs.length, place (k + i) = (front.length + i + low) % slots.length)
    (hys : xs.length ≤ ys.length)
    (hmake : ∀ i (hi : i < xs.length), Follows b (make (k + i)) (addend ys[i]) Eq)
    (carryIn : Node) :
    Follows b ((List.range' k xs.length).foldlM
        (fun s i => do addInto (place i) (← make i) s) (slots, carryIn))
      (Bits.ripple addend (xs.zip ys) carryIn)
      fun s sums => s.1.rotate low = front ++ sums ∧ sums.length = xs.length := by
  induction xs generalizing slots front ys k carryIn with
  | nil => exact .pure ⟨hview, rfl⟩
  | cons old rest ih =>
    obtain _ | ⟨new, ys⟩ := ys
    · cases hys
    have hsize : front.length < slots.length := by
      rw [← List.length_rotate slots low, hview]
      simp
    have hfirst : place k = (front.length + low) % slots.length :=
      hplace 0 (Nat.succ_pos _)
    have hlt : place k < slots.length := hfirst ▸ Nat.mod_lt _ (Nat.zero_lt_of_lt hsize)
    have hold : slots[place k]? = some old := by
      rw [hfirst, ← List.getElem?_rotate hsize, hview]
      simp
    rw [List.length_cons, List.range'_succ, List.foldlM_cons, List.zip_cons_cons, Bits.ripple,
      bind_assoc]
    refine (hmake 0 (Nat.succ_pos _)).bind fun n _ hn => ?_
    subst hn
    simp only [addInto, read_eq hold, write_of_lt hlt, bind_assoc, pure_bind]
    refine .gate_bind fun sum => .gate_bind fun carryOut => ?_
    -- the positions above begin one further up
    have hnext : (slots.set (place k) sum).rotate low = (front ++ [sum]) ++ rest := by
      rw [hfirst, set_rotate slots low _ hsize, hview]
      simp
    refine (ih hnext (fun i hi => ?_) (Nat.le_of_succ_le_succ hys) (fun i hi => ?_)
      carryOut).bind_right fun s made hs => .pure ⟨?_, congrArg Nat.succ hs.2⟩
    · have hi' := hplace (i + 1) (Nat.succ_lt_succ hi)
      rw [List.length_set, List.length_append, List.length_singleton, Nat.add_assoc k 1 i,
        Nat.add_comm 1 i, hi', Nat.add_assoc front.length 1 i, Nat.add_comm 1 i]
    · have hi' := hmake (i + 1) (Nat.succ_lt_succ hi)
      rwa [Nat.add_assoc k 1 i, Nat.add_comm 1 i]
    · rw [hs.1, List.append_assoc, List.singleton_append]

/-- An addition into the last slots. -/
theorem follows_addInto_last {front xs ys : Bits} {k : Nat} {place : Nat → Nat}
    {make : Nat → Checked Node} {addend : Node → Build Node}
    (hplace : ∀ i < xs.length, place (k + i) = front.length + i) (hys : xs.length ≤ ys.length)
    (hmake : ∀ i (hi : i < xs.length), Follows b (make (k + i)) (addend ys[i]) Eq)
    (carryIn : Node) :
    Follows b ((List.range' k xs.length).foldlM
        (fun s i => do addInto (place i) (← make i) s) (front ++ xs, carryIn))
      (Bits.ripple addend (xs.zip ys) carryIn)
      fun s sums => s.1 = front ++ sums ∧ sums.length = xs.length := by
  refine (follows_addInto (List.rotate_zero _) (fun i hi => ?_) hys hmake carryIn).mono
    fun s sums hs => ⟨by rw [← List.rotate_zero s.1, hs.1], hs.2⟩
  rw [hplace i hi, Nat.add_zero, List.length_append, Nat.mod_eq_of_lt (by omega)]

/-! ## Sums and signs -/

/-- A bit of the second integer, or its complement. -/
def operand (subtract : Bool) (y : Bits) (i : Nat) : Checked Node :=
  if subtract then do Build.not (← bit y i) else bit y i

/-- The sum of two integers, or their difference: the complement of the second is added, and one. -/
def rippleAdd (subtract : Bool) (x y : Bits) : Checked Bits := do
  let width := Bits.sumWidth (← get).bitwidth x y
  let (bits, _) ← (List.range width).foldlM
    (fun s i => do addNext (← bit x i) (← operand subtract y i) s) ([], .const subtract)
  finish bits

/-- The integer with the opposite sign. -/
def neg (x : Bits) : Checked Bits := do
  let zero ← finish [.const false]
  rippleAdd true zero x

/-- The integer without its sign. -/
def abs (x : Bits) : Checked Bits := do
  let nonnegative ← Build.not (← sign x)
  let opposite ← neg x
  zipWith (Build.ite nonnegative) x opposite

/-- The sign as an integer. -/
def signum (x : Bits) : Checked Bits := do
  let nonzero ← Build.anyOf x
  let bits := [nonzero, ← sign x]
  let c ← get
  finish (bits.take c.bitwidth)

theorem sumWidth_bounds (hx : x.Sized b) (y : Bits) :
    0 < Bits.sumWidth b x y ∧ Bits.sumWidth b x y ≤ b :=
  ⟨Nat.lt_min.mpr ⟨Nat.succ_pos _, Nat.lt_of_lt_of_le hx.pos hx.le⟩, Nat.min_le_right _ _⟩

theorem align_sumWidth (hx : x.Sized b) (hy : y.Sized b) :
    Bits.align (Bits.sumWidth b x y) x y =
      (List.range (Bits.sumWidth b x y)).map fun i => (x.bit i, y.bit i) :=
  align_eq_map (Nat.le_min.mpr ⟨(Nat.le_max_left _ _).trans (Nat.le_succ _), hx.le⟩)
    (Nat.le_min.mpr ⟨(Nat.le_max_right _ _).trans (Nat.le_succ _), hy.le⟩)

/-- Sums and differences, with what becomes of a bit of the second integer. -/
theorem follows_rippleAdd (subtract : Bool) {addend : Node → Build Node} (hx : x.Sized b)
    (hy : y.Sized b) (hoperand : ∀ i, Follows b (operand subtract y i) (addend (y.bit i)) Eq) :
    Follows b (rippleAdd subtract x y)
      (Bits.ripple addend (Bits.align (Bits.sumWidth b x y) x y) (.const subtract))
      (Made (Bits.sumWidth b x y)) := by
  obtain ⟨hpos, hle⟩ := sumWidth_bounds hx y
  refine .look fun c hc => ?_
  subst hc
  have hmake (i : Nat) (_ : i ∈ List.range (Bits.sumWidth c.bitwidth x y)) := hoperand i
  have hloop := follows_addNext (fun i => (x.bit i, y.bit i)) hmake [] (.const subtract)
  rw [← align_sumWidth hx hy] at hloop
  simp only [bit_eq hx.pos, pure_bind]
  exact hloop.finish_map Prod.fst
    (fun s made hs => ⟨hs.1, (congrArg List.length hs.1).trans (hs.2.trans List.length_range)⟩)
    hpos hle

theorem follows_add (hx : x.Sized b) (hy : y.Sized b) :
    Follows b (rippleAdd false x y) (Bits.add x y) (Made (Bits.sumWidth b x y)) := by
  refine .look_plain fun c hc => ?_
  subst hc
  exact follows_rippleAdd false hx hy fun i => by
    rw [operand, if_neg Bool.false_ne_true, bit_eq hy.pos]
    exact .pure rfl

theorem follows_sub (hx : x.Sized b) (hy : y.Sized b) :
    Follows b (rippleAdd true x y) (Bits.sub x y) (Made (Bits.sumWidth b x y)) := by
  refine .look_plain fun c hc => ?_
  subst hc
  exact follows_rippleAdd true hx hy fun i => by
    rw [operand, if_pos rfl, bit_eq hy.pos, pure_bind]
    exact .gate _

theorem follows_neg (hx : x.Sized b) :
    Follows b (neg x) (Bits.neg x) (Made (min (x.length + 1) b)) := by
  have hone : Bits.Sized b [.const false] := ⟨Nat.one_pos, Nat.le_trans hx.pos hx.le⟩
  have hwidth : Bits.sumWidth b [.const false] x = min (x.length + 1) b := by
    rw [Bits.sumWidth, Bits.maxWidth, List.length_singleton, Nat.max_eq_right hx.pos]
  rw [neg, Bits.neg, ← hwidth]
  exact .finish_bind hone (follows_sub hone hx)

theorem follows_abs (hx : x.Sized b) :
    Follows b (abs x) (Bits.abs x) (Made (min (x.length + 1) b)) := by
  rw [abs, Bits.abs, sign_eq hx.pos, pure_bind]
  refine .gate_bind fun nonnegative => (follows_neg hx).bind fun z _ hz => ?_
  obtain ⟨rfl, hlength⟩ := hz
  have hpos := hx.pos
  have hle := hx.le
  have hsized : Bits.Sized b z := ⟨by omega, by omega⟩
  have hwidth : Bits.maxWidth x z = min (x.length + 1) b := by
    rw [Bits.maxWidth, hlength]
    omega
  rw [← hwidth]
  exact follows_zipWith hx hsized (Build.ite nonnegative)

theorem follows_signum (hx : x.Sized b) :
    Follows b (signum x) (Bits.signum x) (Made (min 2 b)) := by
  have hb := Nat.lt_of_lt_of_le hx.pos hx.le
  rw [signum, Bits.signum, sign_eq hx.pos]
  simp only [pure_bind]
  refine .gate_bind fun nonzero => .look fun c hc => .look_plain fun d hd => ?_
  rw [hc, hd, ← pure_bind (([nonzero, x.sign] : Bits).take b) finish]
  refine Follows.finish (.pure ⟨rfl, ?_⟩) (by omega) (Nat.min_le_right _ _)
  rw [List.length_take, Nat.min_comm]
  rfl

/-! ## Products -/

/-- Adds row `i` of a product into the slots from the `i`-th on. -/
def row (width : Nat) (x y mult : Bits) (i : Nat) : Checked Bits := do
  let factor ← bit x i
  let count ← minus width i
  let s ← (List.range count).foldlM
    (fun s j => do addInto (j + i) (← Build.and factor (← bit y j)) s) (mult, .const false)
  return s.1

/-- Subtracts the row of the sign, of which one bit is within the width. With a single bit the
first row is also that of the sign. -/
def signRow (last : Nat) (x y mult : Bits) : Checked Bits :=
  if 0 < last then do
    let n ← Build.not (← Build.and (← bit x last) (← bit y 0))
    let s ← addInto last n (mult, .const true)
    return s.1
  else pure mult

/-- The product of two integers. -/
def mul (x y : Bits) : Checked Bits := do
  let c ← get
  let width := min (x.length + y.length) c.bitwidth
  let first ← bit x 0
  let mult ← (List.range width).mapM fun j => do Build.and first (← bit y j)
  let last ← minus width 1
  let mult ← (List.range' 1 (last - 1)).foldlM (row width x y) mult
  let mult ← signRow last x y mult
  finish mult

theorem getElem_extend {width j : Nat} (hx : x.length ≤ width) (hj : j < (x.extend width).length) :
    (x.extend width)[j] = x.bit j := by
  simp [Bits.extend_eq_map_bit hx]

theorem bit_extend {width j : Nat} (hx : x.length ≤ width) (hj : j < width) :
    (x.extend width).bit j = x.bit j := by
  have hlt : j < (x.extend width).length := by rwa [Bits.length_extend_of_le hx]
  rw [Bits.bit_of_lt hlt, getElem_extend hx]

/-- A gate on a bit of an integer, at any position below a width. -/
theorem follows_gate_bit {gate : Node → Build Node} [∀ n, Build.Grows (gate n)] {width j : Nat}
    (hy : y.Sized b) (hle : y.length ≤ width) (hj : j < (y.extend width).length) :
    Follows b (do gate (← bit y j)) (gate (y.extend width)[j]) Eq := by
  rw [bit_eq hy.pos, pure_bind, getElem_extend hle]
  exact .gate _

theorem follows_row {width i : Nat} (hx : x.Sized b) (hy : y.Sized b) (hle : y.length ≤ width)
    {front xs : Bits} (hfront : front.length = i) (hxs : xs.length + i = width) :
    Follows b (row width x y (front ++ xs) i)
      (Bits.ripple (Build.and (x.bit i)) (xs.zip (y.extend width)) (.const false))
      fun s sums => s = front ++ sums ∧ sums.length = xs.length := by
  have hcount : width - i = xs.length := by omega
  rw [row, bit_eq hx.pos, pure_bind, minus_of_le (by omega), pure_bind, hcount,
    List.range_eq_range']
  have hys : xs.length ≤ (y.extend width).length := by
    rw [Bits.length_extend_of_le hle]
    omega
  let make (j : Nat) : Checked Node := do Build.and (x.bit i) (← bit y j)
  have hmake (j : Nat) (hj : j < xs.length) :
      Follows b (make (0 + j)) (Build.and (x.bit i) (y.extend width)[j]) Eq := by
    rw [Nat.zero_add]
    exact follows_gate_bit hy hle _
  let place (j : Nat) : Nat := j + i
  have hplace (j : Nat) (_ : j < xs.length) : place (0 + j) = front.length + j := by
    simp only [place]
    omega
  have hloop := follows_addInto_last hplace hys hmake (.const false)
  simp only [make, place, bind_assoc] at hloop
  exact hloop.bind_left fun s sums hs => .pure hs

/-- The row of the sign ends with the last slot. -/
theorem follows_signRow {width i : Nat} (hx : x.Sized b) (hy : y.Sized b) (hle : y.length ≤ width)
    (hi : i + 2 = width) {front : Bits} (hfront : front.length = i) (settled old : Node) :
    Follows b (signRow (width - 1) x y (front ++ [settled, old]))
      (Bits.addRows (y.extend width) [x.bit (i + 1)] [settled, old])
      fun s made => s = front ++ made ∧ made.length = 2 := by
  have hlast : width - 1 = i + 1 := by omega
  have hold : (front ++ [settled, old])[i + 1]? = some old := by
    rw [List.getElem?_append_right (by omega), hfront, Nat.add_sub_cancel_left]
    rfl
  have hlt : i + 1 < (front ++ [settled, old]).length := by
    rw [List.length_append, hfront]
    exact Nat.lt_succ_self _
  rw [signRow, if_pos (by omega), hlast, bit_eq hx.pos, bit_eq hy.pos, pure_bind, pure_bind]
  simp only [Bits.addRows, Bits.ripple, List.zip_cons_cons, List.zip_nil_right, addInto,
    read_eq hold, write_of_lt hlt, bind_assoc, pure_bind, bit_extend hle (by omega : 0 < width)]
  refine .gate_bind fun n => .gate_bind fun k => .gate_bind fun sum =>
    .gate_bind fun _ => .pure ⟨?_, rfl⟩
  rw [List.set_append_right _ _ (by omega), hfront, Nat.add_sub_cancel_left]
  rfl

/-- **All rows from one on**, with the slots below it settled. -/
theorem follows_rows {width : Nat} (hx : x.Sized b) (hy : y.Sized b) (hle : y.length ≤ width)
    {i n : Nat} (hn : i + n + 2 = width) {front above : Bits} (hfront : front.length = i)
    (habove : above.length = n + 2) :
    Follows b
      ((List.range' (i + 1) n).foldlM (row width x y) (front ++ above) >>= signRow (width - 1) x y)
      (Bits.addRows (y.extend width) ((List.range' (i + 1) (n + 1)).map x.bit) above)
      fun s made => s = front ++ made ∧ made.length = n + 2 := by
  induction n generalizing i front above with
  | zero =>
    obtain ⟨settled, old, rfl⟩ : ∃ settled old, above = [settled, old] :=
      List.length_eq_two.mp habove
    rw [List.range'_zero, List.foldlM_nil, pure_bind, List.range'_one, List.map_singleton]
    exact follows_signRow hx hy hle hn hfront settled old
  | succ n ih =>
    obtain _ | ⟨settled, above⟩ := above
    · cases habove
    have habove' : above.length = n + 2 := Nat.succ.inj habove
    have hrest : (List.range' (i + 1) (n + 1 + 1)).map x.bit =
        x.bit (i + 1) :: (List.range' (i + 1 + 1) (n + 1)).map x.bit := by
      rw [List.range'_succ, List.map_cons]
    have hfront' : (front ++ [settled]).length = i + 1 := by simp [hfront]
    rw [List.range'_succ, List.foldlM_cons, bind_assoc, hrest, Bits.addRows, List.append_cons]
    · refine (follows_row hx hy hle hfront' (by omega)).bind fun s made hs => ?_
      obtain ⟨rfl, hmade⟩ := hs
      refine (ih (by omega) hfront' (hmade.trans habove')).bind_right fun s rest hs =>
        .pure ⟨?_, ?_⟩
      · rw [hs.1, List.append_assoc, List.singleton_append]
      · rw [List.length_cons, hs.2]
    · intro hnone
      simp at hnone

theorem follows_firstRow {width : Nat} (hy : y.Sized b) (hle : y.length ≤ width) (factor : Node) :
    Follows b ((List.range width).mapM fun j => do Build.and factor (← bit y j))
      ((y.extend width).mapM (Build.and factor)) (Made width) := by
  have hrow : (y.extend width).mapM (Build.and factor) =
      (List.range width).mapM fun j => Build.and factor (y.bit j) := by
    rw [Bits.extend_eq_map_bit hle, List.mapM_map]
    rfl
  rw [hrow]
  refine (Follows.mapM fun j _ => ?_).mono fun z _ hz => ⟨hz.eq, hz.length.trans List.length_range⟩
  rw [bit_eq hy.pos, pure_bind]
  exact .gate _

theorem follows_mul (hx : x.Sized b) (hy : y.Sized b) :
    Follows b (mul x y) (Bits.mul x y) (Made (min (x.length + y.length) b)) := by
  refine .look fun c hc => .look_plain fun d hd => ?_
  subst hc
  rw [hd]
  have hpos : 0 < min (x.length + y.length) c.bitwidth :=
    Nat.lt_min.mpr ⟨Nat.add_pos_left hx.pos _, hx.pos.trans_le hx.le⟩
  have hxle : x.length ≤ min (x.length + y.length) c.bitwidth :=
    Nat.le_min.mpr ⟨Nat.le_add_right _ _, hx.le⟩
  have hyle : y.length ≤ min (x.length + y.length) c.bitwidth :=
    Nat.le_min.mpr ⟨Nat.le_add_left _ _, hy.le⟩
  have hle := Nat.min_le_right (x.length + y.length) c.bitwidth
  dsimp only
  generalize min (x.length + y.length) c.bitwidth = width at hpos hxle hyle hle ⊢
  rw [bit_eq hx.pos, pure_bind, bit_extend hxle hpos, minus_of_le hpos]
  refine (follows_firstRow hy hyle (x.bit 0)).bind fun first _ hmade => ?_
  obtain ⟨rfl, hlength⟩ := hmade
  obtain _ | _ | n := width
  · cases hpos
  · -- a single bit: no row is left
    have hrest : (x.extend 1).drop 1 = [] := List.drop_eq_nil_of_le (by simp; omega)
    rw [hrest, Bits.addRows, pure_bind, List.range'_zero, List.foldlM_nil, pure_bind, signRow,
      if_neg (Nat.lt_irrefl _), pure_bind, ← bind_pure (finish first)]
    exact .finish_bind ⟨hlength ▸ hpos, hlength ▸ hle⟩ (.pure ⟨rfl, hlength⟩)
  · have hrest : (x.extend (n + 2)).drop 1 = (List.range' 1 (n + 1)).map x.bit := by
      rw [Bits.extend_eq_map_bit hxle, List.range_eq_range', List.range'_succ]
      rfl
    have hrows := follows_rows hx hy hyle (i := 0) (n := n) (by omega)
      (rfl : ([] : Bits).length = 0) hlength
    rw [hrest, pure_bind, ← bind_assoc]
    exact (hrows.mono fun s made hs => ⟨hs.1, hs.1 ▸ hs.2⟩).finish hpos hle

end IntCircuit.Checked
