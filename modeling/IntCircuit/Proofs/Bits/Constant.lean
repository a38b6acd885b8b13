import IntCircuit.Bits.Add
import IntCircuit.Bits.Compare
import IntCircuit.Bits.Denote
import IntCircuit.Bits.Logic
import IntCircuit.Bits.Multiply
import IntCircuit.Bits.Shift
import IntCircuit.Proofs.Bits.Divide
import IntCircuit.Proofs.Circuit.Constant

/-!
# Integers of constant bits

Whatever an operation does with bits, it moves them, drops them, repeats them or joins them by
gates. So out of constant bits come constant bits, and no gate: for each loop this is an invariant
of one round.

## Main results

* `Bits.exists_constants?`: constant bits have values
* `Bits.folds_ripple`: adders
* `Bits.folds_add`, `Bits.folds_mul`, `Bits.folds_div`, ...: each operation
-/

namespace IntCircuit

namespace Bits

variable {x y : Bits}

theorem isConst_iff : x.isConst = true ↔ ∀ n ∈ x, n.isConst = true :=
  List.all_eq_true

/-- **Constant bits have values.** -/
theorem exists_constants? (hx : x.isConst = true) : ∃ values, x.constants? = some values := by
  rw [isConst_iff] at hx
  induction x with
  | nil => exact ⟨[], rfl⟩
  | cons n rest ih =>
    obtain ⟨hn, hrest⟩ := List.forall_mem_cons.mp hx
    obtain ⟨value, rfl⟩ := Node.eq_const_of_isConst hn
    obtain ⟨values, hvalues⟩ := ih hrest
    refine ⟨value :: values, ?_⟩
    rw [constants?] at hvalues
    rw [constants?, List.mapM_cons, hvalues]
    rfl

/-! ## Moving bits -/

theorem isConst_of_subset (hx : x.isConst = true) (h : y ⊆ x) : y.isConst = true :=
  isConst_iff.mpr fun n hn => isConst_iff.mp hx n (h hn)

theorem isConst_cons {n : Node} : isConst (n :: x) = true ↔ n.isConst = true ∧ x.isConst = true :=
  Bool.and_eq_true_iff

theorem isConst_append : isConst (x ++ y) = true ↔ x.isConst = true ∧ y.isConst = true := by
  rw [isConst, List.all_append]
  exact Bool.and_eq_true_iff

theorem isConst_replicate {n : Node} (hn : n.isConst = true) (count : Nat) :
    isConst (List.replicate count n) = true :=
  isConst_iff.mpr fun _ hm => (List.mem_replicate.mp hm).2 ▸ hn

theorem isConst_take (hx : x.isConst = true) (count : Nat) : isConst (x.take count) = true :=
  isConst_of_subset hx (List.take_subset count x)

theorem isConst_drop (hx : x.isConst = true) (count : Nat) : isConst (x.drop count) = true :=
  isConst_of_subset hx (List.drop_subset count x)

theorem isConst_rotateLeft (hx : x.isConst = true) (i : Nat) :
    Bits.isConst (x.rotateLeft i) = true :=
  isConst_of_subset hx (rotateLeft_perm x i).subset

/-- A constant that comes in below, where the highest bit is lost. -/
theorem isConst_shiftIn (value : Bool) (hx : x.isConst = true) :
    isConst (.const value :: x.dropLast) = true :=
  isConst_cons.mpr ⟨rfl, isConst_of_subset hx (List.dropLast_subset x)⟩

theorem isConst_bit (hx : x.isConst = true) (i : Nat) : (x.bit i).isConst = true := by
  rcases x.bit_mem_or_eq i with hmem | heq
  · exact isConst_iff.mp hx _ hmem
  · rw [heq]
    rfl

theorem isConst_sign (hx : x.isConst = true) : x.sign.isConst = true :=
  isConst_bit hx _

theorem isConst_extend (hx : x.isConst = true) (width : Nat) : (x.extend width).isConst = true :=
  isConst_append.mpr ⟨hx, isConst_replicate (isConst_sign hx) _⟩

/-- Constant bits side by side. -/
theorem isConst_of_mem_zip (hx : x.isConst = true) (hy : y.isConst = true) :
    ∀ p ∈ x.zip y, p.1.isConst = true ∧ p.2.isConst = true := by
  rintro ⟨a, b⟩ hp
  obtain ⟨ha, hb⟩ := List.of_mem_zip hp
  exact ⟨isConst_iff.mp hx a ha, isConst_iff.mp hy b hb⟩

theorem isConst_of_mem_align (hx : x.isConst = true) (hy : y.isConst = true) (width : Nat) :
    ∀ p ∈ align width x y, p.1.isConst = true ∧ p.2.isConst = true :=
  isConst_of_mem_zip (isConst_extend hx width) (isConst_extend hy width)

/-! ## Bitwise operations -/

/-- A computation for each of some items makes constant bits if each makes a constant. -/
theorem folds_mapM {α : Type} {items : List α} {make : α → Build Node}
    (h : ∀ a ∈ items, Build.Folds (make a) fun n => n.isConst = true) :
    Build.Folds (items.mapM make) fun x => Bits.isConst x = true :=
  (Build.Folds.judgement.mapM h).mono fun _ hx => isConst_iff.mpr hx

theorem folds_zipWith {gate : Node → Node → Build Node}
    (hgate : ∀ a b, a.isConst = true → b.isConst = true →
      Build.Folds (gate a b) fun n => n.isConst = true)
    (hx : x.isConst = true) (hy : y.isConst = true) :
    Build.Folds (zipWith gate x y) fun z => z.isConst = true :=
  folds_mapM fun p hp => by
    obtain ⟨ha, hb⟩ := isConst_of_mem_align hx hy _ p hp
    exact hgate p.1 p.2 ha hb

theorem folds_not (hx : x.isConst = true) : Build.Folds (not x) fun z => z.isConst = true :=
  folds_mapM fun _ hn => Build.folds_not (isConst_iff.mp hx _ hn)

theorem folds_and (hx : x.isConst = true) (hy : y.isConst = true) :
    Build.Folds (and x y) fun z => z.isConst = true :=
  folds_zipWith (fun _ _ => Build.folds_and) hx hy

theorem folds_or (hx : x.isConst = true) (hy : y.isConst = true) :
    Build.Folds (or x y) fun z => z.isConst = true :=
  folds_zipWith (fun _ _ => Build.folds_or) hx hy

theorem folds_xor (hx : x.isConst = true) (hy : y.isConst = true) :
    Build.Folds (xor x y) fun z => z.isConst = true :=
  folds_zipWith (fun _ _ => Build.folds_xor) hx hy

theorem folds_choose {condition : Node} (hcondition : condition.isConst = true)
    (hx : x.isConst = true) (hy : y.isConst = true) :
    Build.Folds (choose condition x y) fun z => z.isConst = true :=
  folds_zipWith (fun _ _ ha hb => Build.folds_ite hcondition ha hb) hx hy

theorem folds_joinAll (op : Connective) {others : List Bits} (hx : x.isConst = true)
    (hothers : ∀ y ∈ others, y.isConst = true) :
    Build.Folds (joinAll op x others) fun z => z.isConst = true := by
  refine folds_mapM fun i _ => Build.folds_accumulate ?_
  refine Junction.inputs_addUntilDecided_of_isConst
    (Junction.inputs_add_of_isConst rfl (isConst_bit hx i)) fun n hn => ?_
  obtain ⟨y, hy, rfl⟩ := List.mem_map.mp hn
  exact isConst_bit (hothers y hy) i

/-! ## Sums -/

/-- **Adders**, from the lowest bit up: every carry is a constant. -/
theorem folds_ripple {addend : Node → Build Node}
    (haddend : ∀ n, n.isConst = true → Build.Folds (addend n) fun m => m.isConst = true)
    {pairs : List (Node × Node)} (hpairs : ∀ p ∈ pairs, p.1.isConst = true ∧ p.2.isConst = true)
    {carryIn : Node} (hcarry : carryIn.isConst = true) :
    Build.Folds (ripple addend pairs carryIn) fun z => z.isConst = true := by
  induction pairs generalizing carryIn with
  | nil => exact .pure rfl
  | cons p rest ih =>
    obtain ⟨⟨ha, hb⟩, hrest⟩ := List.forall_mem_cons.mp hpairs
    rw [ripple]
    refine (haddend p.2 hb).bind fun b hb => ?_
    refine (Build.folds_sum ha hb hcarry).bind fun sum hsum => ?_
    refine (Build.folds_carry ha hb hcarry).bind fun carryOut hcarry => ?_
    exact (ih hrest hcarry).bind fun z hz => .pure (isConst_cons.mpr ⟨hsum, hz⟩)

theorem folds_add (hx : x.isConst = true) (hy : y.isConst = true) :
    Build.Folds (add x y) fun z => z.isConst = true :=
  .get_bind fun _ => folds_ripple (fun _ => .pure) (isConst_of_mem_align hx hy _) rfl

theorem folds_sub (hx : x.isConst = true) (hy : y.isConst = true) :
    Build.Folds (sub x y) fun z => z.isConst = true :=
  .get_bind fun _ => folds_ripple (fun _ => Build.folds_not) (isConst_of_mem_align hx hy _) rfl

theorem folds_neg (hx : x.isConst = true) : Build.Folds (neg x) fun z => z.isConst = true :=
  folds_sub rfl hx

theorem folds_abs (hx : x.isConst = true) : Build.Folds (abs x) fun z => z.isConst = true := by
  refine (Build.folds_not (isConst_sign hx)).bind fun nonnegative hnonnegative => ?_
  exact (folds_neg hx).bind fun opposite hopposite => folds_choose hnonnegative hx hopposite

theorem folds_signum (hx : x.isConst = true) :
    Build.Folds (signum x) fun z => z.isConst = true := by
  refine (Build.folds_anyOf (isConst_iff.mp hx)).bind fun nonzero hnonzero => ?_
  refine .get_bind fun c => .pure (isConst_take ?_ _)
  exact isConst_cons.mpr ⟨hnonzero, isConst_cons.mpr ⟨isConst_sign hx, rfl⟩⟩

/-! ## Products -/

/-- Rows of a product: the partial product stays constant. -/
theorem folds_addRows (hy : y.isConst = true) {bits above : Bits} (hbits : bits.isConst = true)
    (habove : above.isConst = true) :
    Build.Folds (addRows y bits above) fun z => z.isConst = true := by
  induction bits generalizing above with
  | nil =>
    rw [addRows]
    exact .pure habove
  | cons bit rest ih =>
    obtain ⟨hbit, hrest⟩ := isConst_cons.mp hbits
    cases above with
    | nil =>
      rw [addRows]
      · exact .pure rfl
      · simp
    | cons settled above =>
      obtain ⟨hsettled, habove⟩ := isConst_cons.mp habove
      cases rest with
      | nil =>
        rw [addRows]
        refine (Build.folds_and hbit (isConst_bit hy 0)).bind fun row hrow => ?_
        refine (Build.folds_not hrow).bind fun row hrow => ?_
        refine (folds_ripple (fun _ => .pure) (isConst_of_mem_zip habove ?_) rfl).bind
          fun z hz => .pure (isConst_cons.mpr ⟨hsettled, hz⟩)
        exact isConst_cons.mpr ⟨hrow, rfl⟩
      | cons next rest =>
        rw [addRows]
        · refine (folds_ripple (fun _ => Build.folds_and hbit) (isConst_of_mem_zip habove hy)
            rfl).bind fun above habove => ?_
          exact (ih hrest habove).bind fun z hz => .pure (isConst_cons.mpr ⟨hsettled, hz⟩)
        · simp

theorem folds_mul (hx : x.isConst = true) (hy : y.isConst = true) :
    Build.Folds (mul x y) fun z => z.isConst = true := by
  refine .get_bind fun c => ?_
  have hx' := isConst_extend hx (min (x.length + y.length) c.bitwidth)
  have hy' := isConst_extend hy (min (x.length + y.length) c.bitwidth)
  refine (folds_mapM fun n hn => Build.folds_and (isConst_bit hx' 0)
    (isConst_iff.mp hy' n hn)).bind fun first hfirst => ?_
  exact folds_addRows hy' (isConst_drop hx' 1) hfirst

end Bits

/-! ## Quotients and remainders -/

namespace Rounds

open Bits

variable {y : Bits} {bitwidth : Nat} {r : Rounds}

/-- What division keeps from round to round: all that it has found is constant. -/
structure Constant (r : Rounds) : Prop where
  register : r.register.isConst = true
  digits : r.digits.isConst = true
  nonzero : ∀ n ∈ r.nonzero, n.isConst = true

/-- **One round of a division** by constant bits. -/
theorem folds_step (hy : y.isConst = true) (hr : r.Constant) (i : Nat) :
    Build.Folds (r.step bitwidth y i) Constant := by
  rw [step]
  refine (Build.folds_anyOf (isConst_iff.mp (isConst_rotateLeft hr.register i))).bind
    fun nonzero hnonzero => ?_
  refine (Build.folds_iff (isConst_sign hr.register) (isConst_sign hy)).bind fun digit hdigit => ?_
  have hdoubled := isConst_shiftIn false hr.register
  refine (folds_ripple (fun _ => Build.folds_xor hdigit)
    (isConst_of_mem_zip (isConst_drop hdoubled bitwidth) hy) hdigit).bind fun upper hupper => ?_
  refine .pure ⟨?_, ?_, ?_⟩
  · exact isConst_append.mpr ⟨isConst_take hdoubled _, hupper⟩
  · exact isConst_cons.mpr ⟨hdigit, hr.digits⟩
  · exact List.forall_mem_append.mpr ⟨hr.nonzero, List.forall_mem_singleton.mpr hnonzero⟩

end Rounds

namespace Bits

variable {x y : Bits} {bitwidth : Nat} {r : Rounds}

theorem folds_divisionRounds (hx : x.isConst = true) (hy : y.isConst = true) :
    Build.Folds (divisionRounds bitwidth x y) Rounds.Constant :=
  Build.Folds.judgement.foldlM (fun _ i _ hr => Rounds.folds_step hy hr i)
    ⟨isConst_extend hx _, rfl, fun _ hn => (List.not_mem_nil hn).elim⟩

theorem folds_correction (hx : x.isConst = true) (hy : y.isConst = true) (hr : r.Constant) :
    Build.Folds (correction bitwidth x y r) fun fix =>
      fix.needed.isConst = true ∧ fix.subtract.isConst = true := by
  have hsign := isConst_sign hr.register
  rw [correction]
  refine (Build.folds_allOf hr.nonzero).bind fun everyNonzero hevery => ?_
  refine (Build.folds_not hevery).bind fun someZero hsome => ?_
  refine (Build.folds_anyOf (isConst_iff.mp (isConst_rotateLeft hr.register _))).bind
    fun nonzero hnonzero => ?_
  refine (Build.folds_xor hsign (isConst_sign hx)).bind fun differ hdiffer => ?_
  refine (Build.folds_and hdiffer hnonzero).bind fun wrongSign hwrong => ?_
  refine (Build.folds_or hsome hwrong).bind fun needed hneeded => ?_
  exact (Build.folds_iff hsign (isConst_sign hy)).bind fun subtract hsubtract =>
    .pure ⟨hneeded, hsubtract⟩

theorem folds_div (hx : x.isConst = true) (hy : y.isConst = true) :
    Build.Folds (div x y) fun z => z.isConst = true := by
  refine .get_bind fun c => ?_
  have hdivisor := isConst_extend hy (c.bitwidth + 1)
  refine (folds_divisionRounds hx hdivisor).bind fun rounds hrounds => ?_
  refine (folds_correction hx hdivisor hrounds).bind fun fix hfix => ?_
  refine (Build.folds_not hfix.2).bind fun added hadded => ?_
  refine (Build.folds_and hfix.1 hadded).bind fun down hdown => ?_
  refine (Build.folds_and hfix.1 hfix.2).bind fun up hup => ?_
  have hmoved := isConst_shiftIn true hrounds.digits
  refine folds_ripple (fun _ => .pure) (fun p hp => ?_) hup
  obtain ⟨n, hn, rfl⟩ := List.mem_map.mp hp
  exact ⟨isConst_iff.mp hmoved n hn, hdown⟩

theorem folds_mod (hx : x.isConst = true) (hy : y.isConst = true) :
    Build.Folds (mod x y) fun z => z.isConst = true := by
  refine .get_bind fun c => ?_
  have hdivisor := isConst_extend hy (c.bitwidth + 1)
  refine (folds_divisionRounds hx hdivisor).bind fun rounds hrounds => ?_
  refine (folds_correction hx hdivisor hrounds).bind fun fix hfix => ?_
  refine (Build.folds_and hfix.1 hfix.2).bind fun carryIn hcarry => ?_
  refine (folds_ripple (fun d hd => ?_) (isConst_of_mem_zip (isConst_drop hrounds.register _)
    hdivisor) hcarry).bind fun fixed hfixed => .pure (isConst_take hfixed _)
  exact (Build.folds_xor hfix.2 hd).bind fun _ hn => Build.folds_and hfix.1 hn

/-! ## Shifts -/

theorem folds_shiftLeftStage (distance : Nat) {move : Node} (hmove : move.isConst = true)
    (hx : x.isConst = true) :
    Build.Folds (shiftLeftStage distance move x) fun z => z.isConst = true := by
  have hmoved : isConst ((List.replicate distance (Node.const false) ++ x).take x.length) = true :=
    isConst_take (isConst_append.mpr ⟨isConst_replicate rfl distance, hx⟩) _
  rw [shiftLeftStage]
  refine (folds_mapM fun p hp => ?_).bind fun high hhigh =>
    .pure (isConst_of_subset hhigh (List.reverse_subset.mpr (List.Subset.refl _)))
  obtain ⟨hfar, hnear⟩ := isConst_of_mem_zip hmoved hx p (List.mem_reverse.mp hp)
  exact Build.folds_ite hmove hfar hnear

theorem folds_shiftRightStage {fill : Node} (hfill : fill.isConst = true) (distance : Nat)
    {move : Node} (hmove : move.isConst = true) (hx : x.isConst = true) :
    Build.Folds (shiftRightStage fill distance move x) fun z => z.isConst = true := by
  have hmoved :
      isConst (x.drop distance ++ List.replicate (min distance x.length) fill) = true :=
    isConst_append.mpr ⟨isConst_drop hx distance, isConst_replicate hfill _⟩
  refine folds_mapM fun p hp => ?_
  obtain ⟨hfar, hnear⟩ := isConst_of_mem_zip hmoved hx p hp
  exact Build.folds_ite hmove hfar hnear

theorem folds_shiftBy {stage : Nat → Node → Bits → Build Bits}
    (hstage : ∀ distance move x, move.isConst = true → Bits.isConst x = true →
      Build.Folds (stage distance move x) fun z => z.isConst = true)
    (hx : x.isConst = true) (hy : y.isConst = true) :
    Build.Folds (shiftBy stage x y) fun z => z.isConst = true :=
  .get_bind fun _ => Build.Folds.judgement.foldlM
    (fun _ i _ hz => hstage _ _ _ (isConst_bit hy i) hz) (isConst_extend hx _)

theorem folds_shiftLeft (hx : x.isConst = true) (hy : y.isConst = true) :
    Build.Folds (shiftLeft x y) fun z => z.isConst = true :=
  folds_shiftBy (fun distance _ _ => folds_shiftLeftStage distance) hx hy

theorem folds_shiftRight (hx : x.isConst = true) (hy : y.isConst = true) :
    Build.Folds (shiftRight x y) fun z => z.isConst = true :=
  folds_shiftBy (fun distance _ _ => folds_shiftRightStage rfl distance) hx hy

theorem folds_shiftRightSigned (hx : x.isConst = true) (hy : y.isConst = true) :
    Build.Folds (shiftRightSigned x y) fun z => z.isConst = true :=
  folds_shiftBy (fun distance _ _ => folds_shiftRightStage (isConst_sign hx) distance) hx hy

/-! ## Comparisons -/

theorem folds_eq (hx : x.isConst = true) (hy : y.isConst = true) :
    Build.Folds (eq x y) fun n => n.isConst = true := by
  refine (Junction.folds_feed (fun p hp => ?_) rfl).bind fun _ hj => Build.folds_accumulate hj
  obtain ⟨ha, hb⟩ := isConst_of_mem_align hx hy _ p hp
  exact Build.folds_iff ha hb

theorem folds_ne (hx : x.isConst = true) (hy : y.isConst = true) :
    Build.Folds (ne x y) fun n => n.isConst = true :=
  (folds_eq hx hy).bind fun _ => Build.folds_not

/-- Tests below the sign: they are constants, and so is whether all bits so far agree. -/
theorem folds_leBelow {j : Junction} (hj : j.inputs = #[]) {agree : Node}
    (hagree : agree.isConst = true) {pairs : List (Node × Node)}
    (hpairs : ∀ p ∈ pairs, p.1.isConst = true ∧ p.2.isConst = true) :
    Build.Folds (leBelow j agree pairs) fun j => j.inputs = #[] := by
  induction pairs generalizing j agree with
  | nil => exact .pure hj
  | cons p rest ih =>
    obtain ⟨⟨ha, hb⟩, hrest⟩ := List.forall_mem_cons.mp hpairs
    rw [leBelow]
    refine (Build.folds_implies ha hb).bind fun atMost hatMost => ?_
    refine (Build.folds_implies hagree hatMost).bind fun test htest => ?_
    have hnext := Junction.inputs_add_of_isConst hj htest
    dsimp only
    split
    · exact .pure hnext
    · refine (Build.folds_iff ha hb).bind fun same hsame => ?_
      exact (Build.folds_and hagree hsame).bind fun agree hagree => ih hnext hagree hrest

theorem folds_le (hx : x.isConst = true) (hy : y.isConst = true) :
    Build.Folds (le x y) fun n => n.isConst = true := by
  have hxlast := isConst_bit hx (maxWidth x y - 1)
  have hylast := isConst_bit hy (maxWidth x y - 1)
  rw [le]
  refine (Build.folds_implies hylast hxlast).bind fun test htest => ?_
  refine (Build.folds_iff hxlast hylast).bind fun agree hagree => ?_
  refine (folds_leBelow (Junction.inputs_add_of_isConst rfl htest) hagree fun p hp => ?_).bind
    fun _ hj => Build.folds_accumulate hj
  exact isConst_of_mem_align hx hy _ p (List.mem_of_mem_take (List.mem_reverse.mp hp))

theorem folds_lt (hx : x.isConst = true) (hy : y.isConst = true) :
    Build.Folds (lt x y) fun n => n.isConst = true := by
  refine (folds_le hx hy).bind fun atMost hatMost => ?_
  refine (Junction.folds_feed (fun p hp => ?_) rfl).bind fun _ hj => ?_
  · obtain ⟨ha, hb⟩ := isConst_of_mem_align hx hy _ p hp
    exact Build.folds_xor ha hb
  · exact (Build.folds_accumulate hj).bind fun _ hdiffer => Build.folds_and hatMost hdiffer

end Bits

end IntCircuit
