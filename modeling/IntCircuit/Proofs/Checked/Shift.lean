import IntCircuit.Bits.Shift
import IntCircuit.Proofs.Checked.Logic

/-!
# Shifts, checked

A stage of a shift goes through the slots and puts a choice into each, between what is there and
what is some slots away. It goes away from where it reads: a shift towards higher positions takes
the highest slot first, and one towards lower positions the lowest. So what it reads has not been
written yet.

## Main definitions

* `Checked.below`, `Checked.above`: what is some slots away, or what comes in at the end
* `Checked.shiftLeftStage`, `Checked.shiftRightStage`, `Checked.shiftStage`: stages
* `Checked.shiftBy`, `Checked.shiftLeft`, `Checked.shiftRight`, `Checked.shiftRightSigned`: shifts

## Main results

* `Checked.follows_upward`, `Checked.follows_downward`: slots written one after another
* `Checked.follows_shiftLeft`, `Checked.follows_shiftRight`, `Checked.follows_shiftRightSigned`: the
  shifts
-/

namespace IntCircuit.Checked

variable {b : Nat} {x y : Bits}

/-! ## Slots written one after another -/

/-- From the lowest slot up: what is made for a slot may depend on the slots from there on. -/
theorem follows_upward {make : Bits → Nat → Checked Node} {plain : Nat → Build Node}
    (hmake : ∀ j < x.length, ∀ front : Bits, front.length = j →
      Follows b (make (front ++ x.drop j) j) (plain j) Eq)
    {k n : Nat} (hk : k + n = x.length) {front : Bits} (hfront : front.length = k) :
    Follows b
      ((List.range' k n).foldlM (fun s j => do write s j (← make s j)) (front ++ x.drop k))
      ((List.range' k n).mapM plain) fun s made => s = front ++ made ∧ made.length = n := by
  induction n generalizing k front with
  | zero =>
    have hdrop : x.drop k = [] := List.drop_eq_nil_of_le (by omega)
    rw [hdrop]
    exact .pure ⟨rfl, rfl⟩
  | succ n ih =>
    have hlt : k < x.length := by omega
    have hslots : k < (front ++ x.drop k).length := by
      rw [List.length_append, List.length_drop]
      omega
    rw [List.range'_succ, List.foldlM_cons, List.mapM_cons, bind_assoc]
    refine (hmake k hlt front hfront).bind fun a _ ha => ?_
    subst ha
    have hnext : (front ++ x.drop k).set k a = (front ++ [a]) ++ x.drop (k + 1) := by
      rw [List.set_append_right _ _ (Nat.le_of_eq hfront), hfront, Nat.sub_self,
        List.drop_eq_getElem_cons hlt, List.set_cons_zero, List.append_assoc, List.singleton_append]
    rw [write_of_lt hslots, pure_bind, hnext]
    refine (ih (by omega) (by simp [hfront])).bind_right fun s made hs => .pure ⟨?_, ?_⟩
    · rw [hs.1, List.append_assoc, List.singleton_append]
    · rw [List.length_cons, hs.2]

/-- From the highest slot down: what is made for a slot may depend on the slots up to it. -/
theorem follows_downward {make : Bits → Nat → Checked Node} {plain : Nat → Build Node}
    (hmake : ∀ j < x.length, ∀ back : Bits,
      Follows b (make (x.take (j + 1) ++ back) j) (plain j) Eq)
    {k : Nat} (hk : k ≤ x.length) (back : Bits) :
    Follows b
      ((List.range k).reverse.foldlM (fun s j => do write s j (← make s j)) (x.take k ++ back))
      ((List.range k).reverse.mapM plain) fun s made =>
        s = made.reverse ++ back ∧ made.length = k := by
  induction k generalizing back with
  | zero => exact .pure ⟨rfl, rfl⟩
  | succ k ih =>
    have hlt : k < x.length := hk
    have htake : (x.take k).length = k := List.length_take_of_le hlt.le
    have hslots : k < (x.take (k + 1) ++ back).length := by
      rw [List.length_append, List.length_take_of_le hk]
      omega
    rw [List.range_succ, List.reverse_append, List.reverse_singleton, List.singleton_append,
      List.foldlM_cons, List.mapM_cons, bind_assoc]
    refine (hmake k hlt back).bind fun a _ ha => ?_
    subst ha
    have hnext : (x.take (k + 1) ++ back).set k a = x.take k ++ a :: back := by
      rw [List.take_succ_eq_append_getElem hlt, List.append_assoc, List.singleton_append,
        List.set_append_right _ _ (Nat.le_of_eq htake), htake, Nat.sub_self, List.set_cons_zero]
    rw [write_of_lt hslots, pure_bind, hnext]
    refine (ih hlt.le (a :: back)).bind_right fun s made hs => .pure ⟨?_, ?_⟩
    · rw [hs.1, List.reverse_cons, List.append_assoc, List.singleton_append]
    · rw [List.length_cons, hs.2]

/-! ## Stages -/

/-- What is `distance` slots below a slot; false where there is none. -/
def below (distance : Nat) (slots : Bits) (j : Nat) : Checked Node :=
  if j < distance then pure (.const false) else do read slots (← minus j distance)

/-- What is `distance` slots above a slot, of `width` slots; `fill` where there is none. -/
def above (width distance : Nat) (fill : Node) (slots : Bits) (j : Nat) : Checked Node :=
  if j + distance < width then read slots (j + distance) else pure fill

/-- What goes into a slot: what is some slots away if `move` holds, and else what is there. -/
def chosen (far : Bits → Nat → Checked Node) (move : Node) (slots : Bits) (j : Nat) :
    Checked Node := do
  let far ← far slots j
  Build.ite move far (← read slots j)

/-- A stage of a shift towards higher positions, from the highest slot down. -/
def shiftLeftStage (width distance : Nat) (move : Node) (slots : Bits) : Checked Bits :=
  (List.range width).reverse.foldlM
    (fun slots j => do write slots j (← chosen (below distance) move slots j)) slots

/-- A stage of a shift towards lower positions, from the lowest slot up. -/
def shiftRightStage (fill : Node) (width distance : Nat) (move : Node) (slots : Bits) :
    Checked Bits :=
  (List.range width).foldlM
    (fun slots j => do write slots j (← chosen (above width distance fill) move slots j)) slots

/-- The node at a position of a list, or false past its end. -/
def nodeAt (x : Bits) (j : Nat) : Node :=
  x.getD j (.const false)

theorem nodeAt_of_getElem? {j : Nat} {n : Node} (h : x[j]? = some n) : nodeAt x j = n := by
  rw [nodeAt, List.getD_eq_getElem?_getD, h, Option.getD_some]

/-- What moves where in a stage towards higher positions. -/
theorem zip_moved_up (x : Bits) (distance : Nat) :
    ((List.replicate distance (Node.const false) ++ x).take x.length).zip x =
      (List.range x.length).map fun j =>
        (if j < distance then .const false else nodeAt x (j - distance), nodeAt x j) := by
  apply List.ext_getElem (by simp)
  intro j hj _
  have hlt : j < x.length := by
    rw [List.length_zip] at hj
    omega
  have hfar : j - distance < x.length := by omega
  by_cases hin : j < distance <;>
    simp [nodeAt, List.getElem_append, hlt, hfar, hin]

/-- What moves where in a stage towards lower positions. -/
theorem zip_moved_down (x : Bits) (fill : Node) (distance : Nat) :
    (x.drop distance ++ List.replicate (min distance x.length) fill).zip x =
      (List.range x.length).map fun j =>
        (if j + distance < x.length then nodeAt x (j + distance) else fill, nodeAt x j) := by
  apply List.ext_getElem
  · simp
    omega
  intro j hj _
  have hlt : j < x.length := by
    rw [List.length_zip] at hj
    omega
  by_cases hin : j + distance < x.length
  · have hdrop : j < x.length - distance := by omega
    simp [nodeAt, hlt, hin, hdrop, Nat.add_comm distance j]
  · have hdrop : ¬j < x.length - distance := by omega
    simp [nodeAt, List.getElem_append, hlt, hin, hdrop]

/-- Where only higher slots have been written, what is chosen is chosen from what was there. -/
theorem follows_chosen_below (distance : Nat) (move : Node) {j : Nat} (hj : j < x.length)
    (back : Bits) :
    Follows b (chosen (below distance) move (x.take (j + 1) ++ back) j)
      (Build.ite move (if j < distance then .const false else nodeAt x (j - distance))
        (nodeAt x j)) Eq := by
  have hread (k : Nat) (hk : k ≤ j) :
      (read (x.take (j + 1) ++ back) k : Checked Node) = pure (nodeAt x k) := by
    have hkth : x[k]? = some x[k] := List.getElem?_eq_getElem (by omega)
    rw [nodeAt_of_getElem? hkth]
    apply read_eq
    rw [List.getElem?_append_left (by rw [List.length_take]; omega), List.getElem?_take,
      if_pos (by omega), hkth]
  have hbelow : below distance (x.take (j + 1) ++ back) j =
      pure (if j < distance then .const false else nodeAt x (j - distance)) := by
    rw [below]
    split
    · rfl
    · rw [minus_of_le (by omega), pure_bind, hread _ (by omega)]
  rw [chosen, hbelow, pure_bind, hread j (Nat.le_refl j), pure_bind]
  exact .gate _

/-- Where only lower slots have been written, what is chosen is chosen from what was there. -/
theorem follows_chosen_above (fill : Node) (distance : Nat) (move : Node) {j : Nat}
    (hj : j < x.length) {front : Bits} (hfront : front.length = j) :
    Follows b (chosen (above x.length distance fill) move (front ++ x.drop j) j)
      (Build.ite move (if j + distance < x.length then nodeAt x (j + distance) else fill)
        (nodeAt x j)) Eq := by
  have hread (k : Nat) (hk : j + k < x.length) :
      (read (front ++ x.drop j) (j + k) : Checked Node) = pure (nodeAt x (j + k)) := by
    have hkth : x[j + k]? = some x[j + k] := List.getElem?_eq_getElem hk
    rw [nodeAt_of_getElem? hkth]
    apply read_eq
    rw [List.getElem?_append_right (by omega), List.getElem?_drop, hfront,
      Nat.add_sub_cancel_left, hkth]
  have habove : above x.length distance fill (front ++ x.drop j) j =
      pure (if j + distance < x.length then nodeAt x (j + distance) else fill) := by
    rw [above]
    split
    next h => exact hread distance h
    next => rfl
  have hnear : (read (front ++ x.drop j) j : Checked Node) = pure (nodeAt x j) := hread 0 hj
  rw [chosen, habove, pure_bind, hnear, pure_bind]
  exact .gate _

theorem follows_shiftLeftStage (distance : Nat) (move : Node) (x : Bits) :
    Follows b (shiftLeftStage x.length distance move x) (Bits.shiftLeftStage distance move x)
      (Made x.length) := by
  have hloop := follows_downward (b := b)
    (fun j hj => follows_chosen_below distance move (x := x) hj) (Nat.le_refl _) []
  rw [List.take_length, List.append_nil] at hloop
  rw [Bits.shiftLeftStage, zip_moved_up, ← List.map_reverse, List.mapM_map]
  refine hloop.bind_right fun s made hs => .pure ⟨?_, ?_⟩
  · rw [hs.1, List.append_nil]
  · rw [hs.1, List.append_nil, List.length_reverse, hs.2]

theorem follows_shiftRightStage (fill : Node) (distance : Nat) (move : Node) (x : Bits) :
    Follows b (shiftRightStage fill x.length distance move x)
      (Bits.shiftRightStage fill distance move x) (Made x.length) := by
  have hloop := follows_upward (b := b)
    (fun j hj front => follows_chosen_above fill distance move (x := x) hj) (Nat.zero_add _)
    (rfl : ([] : Bits).length = 0)
  rw [List.drop_zero, List.nil_append, ← List.range_eq_range'] at hloop
  rw [Bits.shiftRightStage, zip_moved_down, List.mapM_map]
  exact hloop.mono fun s made hs => ⟨hs.1, hs.1 ▸ hs.2⟩

/-! ## Shifts -/

/-- One stage of a shift. Its distance is a machine integer, in which 1 can be moved up by less than
32. -/
def shiftStage (stage : Nat → Node → Bits → Checked Bits) (amount slots : Bits) (i : Nat) :
    Checked Bits := do
  require (i < 32)
  stage (1 <<< i) (← bit amount i) slots

/-- All stages in turn, on the first integer at full bitwidth. -/
def shiftBy (stage : Nat → Nat → Node → Bits → Checked Bits) (x amount : Bits) : Checked Bits := do
  let c ← get
  let slots ← extend x c.bitwidth
  let slots ← (List.range (Bits.shiftStages c.bitwidth)).foldlM
    (shiftStage (stage c.bitwidth) amount) slots
  finish slots

/-- The first integer moved towards higher positions. -/
def shiftLeft (x amount : Bits) : Checked Bits :=
  shiftBy shiftLeftStage x amount

/-- The first integer moved towards lower positions; zeros come in. -/
def shiftRight (x amount : Bits) : Checked Bits :=
  shiftBy (shiftRightStage (.const false)) x amount

/-- The first integer moved towards lower positions; its sign comes in. -/
def shiftRightSigned (x amount : Bits) : Checked Bits := do
  let fill ← sign x
  shiftBy (shiftRightStage fill) x amount

theorem shiftStages_lt {bitwidth : Nat} (hpos : 0 < bitwidth) :
    Bits.shiftStages bitwidth < bitwidth := by
  rw [Bits.shiftStages]
  split
  · exact hpos
  · have hlog := (Nat.log2_lt (show bitwidth - 1 ≠ 0 by omega)).mpr Nat.lt_two_pow_self
    omega

/-- Stages that keep the width keep it throughout. -/
theorem follows_shiftBy {stage : Nat → Nat → Node → Bits → Checked Bits}
    {plain : Nat → Node → Bits → Build Bits}
    (hstage : ∀ distance move (x : Bits), Follows b (stage x.length distance move x)
      (plain distance move x) (Made x.length)) (hx : x.Sized b) (hy : y.Sized b) :
    Follows b (shiftBy stage x y) (Bits.shiftBy plain x y) (Made b) := by
  refine .look fun c hc => .look_plain fun d hd => ?_
  have hpos : 0 < b := Nat.lt_of_lt_of_le hx.pos hx.le
  have hstages : Bits.shiftStages b < 32 :=
    (shiftStages_lt hpos).trans_le (hc ▸ c.bitwidth_le)
  rw [hc, hd, extend_eq hx.pos, pure_bind]
  refine Follows.finish ?_ hpos (Nat.le_refl b)
  refine Follows.foldlM_range (fun _ => Made b) ⟨rfl, Bits.length_extend_of_le hx.le⟩
    fun i s _ hi hs => ?_
  obtain ⟨rfl, hlength⟩ := hs
  rw [shiftStage, require_of (hi.trans hstages), pure_bind, bit_eq hy.pos, pure_bind]
  simpa only [hlength] using hstage (1 <<< i) (y.bit i) s

theorem follows_shiftLeft (hx : x.Sized b) (hy : y.Sized b) :
    Follows b (shiftLeft x y) (Bits.shiftLeft x y) (Made b) :=
  follows_shiftBy follows_shiftLeftStage hx hy

theorem follows_shiftRight (hx : x.Sized b) (hy : y.Sized b) :
    Follows b (shiftRight x y) (Bits.shiftRight x y) (Made b) :=
  follows_shiftBy (follows_shiftRightStage _) hx hy

theorem follows_shiftRightSigned (hx : x.Sized b) (hy : y.Sized b) :
    Follows b (shiftRightSigned x y) (Bits.shiftRightSigned x y) (Made b) := by
  rw [shiftRightSigned, sign_eq hx.pos, pure_bind]
  exact follows_shiftBy (follows_shiftRightStage _) hx hy

end IntCircuit.Checked
