import IntCircuit.Proofs.Checked.Word
import IntCircuit.Proofs.Program.Replay

/-!
# Constructions, checked

Words are made of literals, variables and bits, and out of other words, step after step. At every
moment all words have at least one bit and at most as many as the bitwidth, and that is all that a
step needs to meet no breach. How wide the word is that it makes can be told from the widths of its
operands.

## Main definitions

* `Step.checked`: the registers after a checked step
* `Step.widths`: the widths of the words after a step
* `Step.attempt`, `Construction.attempt`: steps that may be refused, and after which others follow

## Main results

* `UnaryOp.follows`, `BinaryOp.follows`, `FoldOp.follows`, `Relation.follows`: operations on words
* `Step.follows`: what one step preserves
* `Construction.follows_attempt`: what all steps preserve
* `Construction.meets_no_breach`: every construction on a new circuit
-/

namespace IntCircuit

open CheckedWork

/-! ## Checked steps -/

def UnaryOp.checked : UnaryOp → Word → CheckedWork Word
  | neg => unary Checked.neg
  | abs => unary Checked.abs
  | signum => unary Checked.signum
  | not => unary Checked.not

def BinaryOp.checked : BinaryOp → Word → Word → CheckedWork Word
  | add => binary (Checked.rippleAdd false)
  | sub => binary (Checked.rippleAdd true)
  | mul => binary Checked.mul
  | div => binary Checked.div
  | mod => binary Checked.mod
  | shiftLeft => binary Checked.shiftLeft
  | shiftRight => binary Checked.shiftRight
  | shiftRightSigned => binary Checked.shiftRightSigned
  | and => binary (Checked.zipWith Build.and)
  | or => binary (Checked.zipWith Build.or)
  | xor => binary (Checked.zipWith Build.xor)

def FoldOp.checked : FoldOp → Word → List Word → CheckedWork Word
  | sum => reduce (BinaryOp.checked .add)
  | product => reduce (BinaryOp.checked .mul)
  | join op => joinAll op

def Relation.checked : Relation → Word → Word → CheckedWork Node
  | eq, x, y => relation Checked.eq x y
  | ne, x, y => relation Checked.ne x y
  | lt, x, y => relation Checked.lt x y
  | le, x, y => relation Checked.le x y
  | gt, x, y => relation Checked.lt y x
  | ge, x, y => relation Checked.le y x

def NodeOp.checked (id : Nat) (r : Registers Node Word) : NodeOp → CheckedWork Node
  | const value => pure (.const value)
  | var label => do CheckedWork.ofExcept ((← circuit id).var label)
  | relation op x y => op.checked (r.words x) (r.words y)
  | call gates => build id (liftM (gates.map r.nodes).build)

def WordOp.checked (id : Nat) (r : Registers Node Word) : WordOp → CheckedWork Word
  | literal n => do CheckedWork.literal (← circuit id) n (.const true)
  | literalIf n one => do CheckedWork.literal (← circuit id) n (r.nodes one)
  | range start stop => do wordVariable (← circuit id) start stop
  | unary op x => op.checked (r.words x)
  | binary op x y => op.checked (r.words x) (r.words y)
  | choose condition x y =>
    CheckedWork.binary (Checked.zipWith (Build.ite (r.nodes condition))) (r.words x) (r.words y)
  | fold op x others => op.checked (r.words x) (others.map r.words)

def Instruction.checked (id : Nat) (r : Registers Node Word) :
    Instruction → CheckedWork (Registers Node Word)
  | node target op => do return r.setNode target (← op.checked id r)
  | word target op => do return r.setWord target (← op.checked id r)

/-- The registers after a checked step on the circuit at the number `id`. -/
def Step.checked (id : Nat) (r : Registers Node Word) :
    Step → CheckedWork (Registers Node Word)
  | op instruction => instruction.checked id r
  | bit target x i => do return r.setNode target (← Checked.bit (r.words x).bits i)
  | fullBit target x i => do
    return r.setNode target (← CheckedWork.fullBit (← circuit id) (r.words x) i)
  | bits target nodes => do
    return r.setWord target (← wordOfBits (← circuit id) (nodes.map r.nodes))

/-! ## Widths -/

/-- The width of what an operation makes of a word of width `v`. -/
def UnaryOp.width (bitwidth v : Nat) : UnaryOp → Nat
  | neg => min (v + 1) bitwidth
  | abs => min (v + 1) bitwidth
  | signum => min 2 bitwidth
  | not => v

/-- The width of what an operation makes of words of widths `v` and `w`. -/
def BinaryOp.width (bitwidth v w : Nat) : BinaryOp → Nat
  | add => min (max v w + 1) bitwidth
  | sub => min (max v w + 1) bitwidth
  | mul => min (v + w) bitwidth
  | div => bitwidth
  | mod => bitwidth
  | shiftLeft => bitwidth
  | shiftRight => bitwidth
  | shiftRightSigned => bitwidth
  | and => max v w
  | or => max v w
  | xor => max v w

/-- The width of what an operation makes of any number of words; sums and products are combined like
the words. -/
def FoldOp.width (bitwidth v : Nat) (others : List Nat) : FoldOp → Nat
  | sum => Id.run (combineTree (fun v w => pure (BinaryOp.width bitwidth v w .add)) v others)
  | product => Id.run (combineTree (fun v w => pure (BinaryOp.width bitwidth v w .mul)) v others)
  | join _ => others.foldl max v

/-- The width of the word that an operation makes where the words have these widths. -/
def WordOp.width (bitwidth : Nat) (widths : Nat → Nat) : WordOp → Nat
  | literal n => Bits.literalWidth bitwidth n
  | literalIf n _ => Bits.literalWidth bitwidth n
  | range start stop => stop - start
  | unary op x => op.width bitwidth (widths x)
  | binary op x y => op.width bitwidth (widths x) (widths y)
  | choose _ x y => max (widths x) (widths y)
  | fold op x others => op.width bitwidth (widths x) (others.map widths)

def Instruction.widths (bitwidth : Nat) (widths : Nat → Nat) : Instruction → Nat → Nat
  | node _ _ => widths
  | word target op => Function.update widths target (op.width bitwidth widths)

/-- The widths of all words after a step. -/
def Step.widths (bitwidth : Nat) (widths : Nat → Nat) : Step → Nat → Nat
  | op instruction => instruction.widths bitwidth widths
  | bit _ _ _ => widths
  | fullBit _ _ _ => widths
  | bits target nodes => Function.update widths target nodes.length

/-- The widths of all words. -/
def Registers.widths (r : Registers Node Word) : Nat → Nat :=
  fun i => (r.words i).width

/-! ## Operations on words -/

variable {id b : Nat} {x y : Word} {others : List Word}

theorem UnaryOp.width_bounds (op : UnaryOp) {v : Nat} (hv : 0 < v ∧ v ≤ b) :
    0 < op.width b v ∧ op.width b v ≤ b := by
  cases op <;> simp only [UnaryOp.width] <;> omega

theorem BinaryOp.width_bounds (op : BinaryOp) {v w : Nat} (hv : 0 < v ∧ v ≤ b)
    (hw : 0 < w ∧ w ≤ b) : 0 < op.width b v w ∧ op.width b v w ≤ b := by
  cases op <;> simp only [BinaryOp.width] <;> omega

theorem Word.Sized.width_bounds (hx : x.Sized id b) : 0 < x.width ∧ x.width ≤ b :=
  ⟨hx.bits.pos, hx.bits.le⟩

/-- **An operation on one word** meets no breach. -/
theorem UnaryOp.follows (op : UnaryOp) (hx : x.Sized id b) :
    CheckedWork.Follows id b (op.checked x) (op.run x)
      fun z => z.Sized id b ∧ z.width = op.width b x.width := by
  have hwidth := op.width_bounds hx.width_bounds
  cases op with
  | neg => exact follows_unary hx (Checked.follows_neg hx.bits) hwidth
  | abs => exact follows_unary hx (Checked.follows_abs hx.bits) hwidth
  | signum => exact follows_unary hx (Checked.follows_signum hx.bits) hwidth
  | not => exact follows_unary hx (Checked.follows_not hx.bits) hwidth

/-- **An operation on two words** meets no breach. -/
theorem BinaryOp.follows (op : BinaryOp) (hx : x.Sized id b) (hy : y.Sized id b) :
    CheckedWork.Follows id b (op.checked x y) (op.run x y)
      fun z => z.Sized id b ∧ z.width = op.width b x.width y.width := by
  have hwidth := op.width_bounds hx.width_bounds hy.width_bounds
  cases op with
  | add => exact follows_binary hx hy (Checked.follows_add hx.bits hy.bits) hwidth
  | sub => exact follows_binary hx hy (Checked.follows_sub hx.bits hy.bits) hwidth
  | mul => exact follows_binary hx hy (Checked.follows_mul hx.bits hy.bits) hwidth
  | div => exact follows_binary hx hy (Checked.follows_div hx.bits hy.bits) hwidth
  | mod => exact follows_binary hx hy (Checked.follows_mod hx.bits hy.bits) hwidth
  | shiftLeft => exact follows_binary hx hy (Checked.follows_shiftLeft hx.bits hy.bits) hwidth
  | shiftRight => exact follows_binary hx hy (Checked.follows_shiftRight hx.bits hy.bits) hwidth
  | shiftRightSigned =>
    exact follows_binary hx hy (Checked.follows_shiftRightSigned hx.bits hy.bits) hwidth
  | and | or | xor =>
    exact follows_binary hx hy (Checked.follows_zipWith hx.bits hy.bits _) hwidth

/-- **An operation on any number of words** meets no breach. -/
theorem FoldOp.follows (op : FoldOp) (hx : x.Sized id b) (hothers : ∀ y ∈ others, y.Sized id b) :
    CheckedWork.Follows id b (op.checked x others) (op.run x others)
      fun z => z.Sized id b ∧ z.width = op.width b x.width (others.map Word.width) := by
  cases op with
  | sum => exact follows_reduce (fun _ _ => BinaryOp.add.follows) hx hothers
  | product => exact follows_reduce (fun _ _ => BinaryOp.mul.follows) hx hothers
  | join op =>
    refine (follows_joinAll op hx hothers).mono fun z hz => ⟨hz.1, ?_⟩
    rw [hz.2, FoldOp.width, List.foldl_map]

/-- **A comparison of two words** meets no breach. -/
theorem Relation.follows (op : Relation) (hx : x.Sized id b) (hy : y.Sized id b) :
    CheckedWork.Follows id b (op.checked x y) (op.run x y) fun _ => True := by
  cases op with
  | eq => exact follows_relation hx hy (Checked.follows_eq hx.bits hy.bits)
  | ne => exact follows_relation hx hy (Checked.follows_ne hx.bits hy.bits)
  | lt => exact follows_relation hx hy (Checked.follows_lt hx.bits hy.bits)
  | le => exact follows_relation hx hy (Checked.follows_le hx.bits hy.bits)
  | gt => exact follows_relation hy hx (Checked.follows_lt hy.bits hx.bits)
  | ge => exact follows_relation hy hx (Checked.follows_le hy.bits hx.bits)

/-! ## Steps -/

/-- Literals are machine integers. -/
def WordOp.Bounded : WordOp → Prop
  | literal n => InRange 32 n
  | literalIf n _ => InRange 32 n
  | _ => True

/-- Literals are machine integers, if the step makes one. -/
def Step.Bounded : Step → Prop
  | op (.word _ make) => make.Bounded
  | _ => True

/-- All words are words of the circuit, with as many bits as they can have. -/
def Registers.Sized (id b : Nat) (r : Registers Node Word) : Prop :=
  ∀ i, (r.words i).Sized id b

section Steps

variable {r : Registers Node Word} {z : Word} {width : Nat}

theorem Registers.Sized.setWord (hr : r.Sized id b) (hz : z.Sized id b ∧ z.width = width)
    (target : Nat) : (r.setWord target z).Sized id b ∧
      (r.setWord target z).widths = Function.update r.widths target width := by
  constructor
  · intro i
    by_cases hi : i = target
    · subst hi
      simpa [Registers.setWord] using hz.1
    · simpa [Registers.setWord, hi] using hr i
  · funext i
    by_cases hi : i = target
    · subst hi
      simpa [Registers.setWord, Registers.widths] using hz.2
    · simp [Registers.setWord, Registers.widths, hi]

theorem NodeOp.follows (op : NodeOp) (hr : r.Sized id b) :
    CheckedWork.Follows id b (op.checked id r) (op.run id r) fun _ => True := by
  cases op with
  | const value => exact .pure trivial
  | var label => exact .look fun c _ _ => .ofExcept fun _ _ => trivial
  | relation op x y => exact op.follows (hr x) (hr y)
  | call gates =>
    rw [NodeOp.checked, NodeOp.run]
    exact follows_build (.gate _) fun _ _ heq => ⟨heq, trivial⟩

theorem WordOp.follows (op : WordOp) (hop : op.Bounded) (hr : r.Sized id b) :
    CheckedWork.Follows id b (op.checked id r) (op.run id r)
      fun z => z.Sized id b ∧ z.width = op.width b r.widths := by
  cases op with
  | literal n => exact .look fun c hc hb => follows_literal hc hb hop _
  | literalIf n one => exact .look fun c hc hb => follows_literal hc hb hop _
  | range start stop => exact .look fun c hc hb => follows_wordVariable hc hb start stop
  | unary op x => exact op.follows (hr x)
  | binary op x y => exact op.follows (hr x) (hr y)
  | choose condition x y =>
    have hwidth := BinaryOp.width_bounds .and (hr x).width_bounds (hr y).width_bounds
    exact follows_binary (hr x) (hr y) (Checked.follows_zipWith (hr x).bits (hr y).bits _) hwidth
  | fold op x others =>
    have hothers : ∀ y ∈ others.map r.words, y.Sized id b := by
      intro y hy
      obtain ⟨i, -, rfl⟩ := List.mem_map.mp hy
      exact hr i
    refine (op.follows (hr x) hothers).mono fun z hz => ⟨hz.1, ?_⟩
    rw [hz.2, List.map_map]
    rfl

theorem Instruction.follows (instruction : Instruction) (h : (Step.op instruction).Bounded)
    (hr : r.Sized id b) :
    CheckedWork.Follows id b (instruction.checked id r) (instruction.run id r)
      fun s => s.Sized id b ∧ s.widths = instruction.widths b r.widths := by
  cases instruction with
  | node target op => exact (op.follows hr).bind fun n _ => .pure ⟨hr, rfl⟩
  | word target op => exact (op.follows h hr).bind fun z hz => .pure (hr.setWord hz target)

/-- **One step** meets no breach, and tells how wide the words are after it. -/
theorem Step.follows (step : Step) (h : step.Bounded) (hr : r.Sized id b) :
    CheckedWork.Follows id b (step.checked id r) (step.run id r)
      fun s => s.Sized id b ∧ s.widths = step.widths b r.widths := by
  cases step with
  | op instruction => exact instruction.follows h hr
  | bit target x i =>
    rw [Step.checked, Checked.bit_eq (hr x).bits.pos, pure_bind]
    exact .pure ⟨hr, rfl⟩
  | fullBit target x i =>
    exact .look fun c _ _ => (follows_fullBit c (hr x) i).bind fun n _ => .pure ⟨hr, rfl⟩
  | bits target nodes =>
    refine .look fun c hc hb => (follows_wordOfBits hc hb _).bind fun z hz => .pure ?_
    rw [List.length_map] at hz
    exact hr.setWord hz target

end Steps

/-! ## Steps that may be refused -/

/-- The registers after a step; a step that is refused leaves them as they are. -/
def Step.attempt (id : Nat) (r : Registers Node Word) (step : Step) :
    Work (Registers Node Word) :=
  tryCatch (step.run id r) fun _ => pure r

/-- The registers after a checked step; a step that is refused leaves them as they are. -/
def Step.checkedAttempt (id : Nat) (r : Registers Node Word) (step : Step) :
    CheckedWork (Registers Node Word) :=
  ExceptT.mk (tryCatch (step.checked id r).run fun _ => pure (.ok r))

/-- The registers after all steps. -/
def Construction.attempt (id : Nat) (p : Construction) (r : Registers Node Word) :
    Work (Registers Node Word) :=
  p.foldlM (Step.attempt id) r

/-- The registers after all steps, checked. -/
def Construction.checkedAttempt (id : Nat) (p : Construction) (r : Registers Node Word) :
    CheckedWork (Registers Node Word) :=
  p.foldlM (Step.checkedAttempt id) r

variable {r : Registers Node Word}

theorem Step.exists_runs_attempt (step : Step) (id : Nat) (r : Registers Node Word)
    (w : Workspace) : ∃ s w₁, Runs (step.attempt id r) w s w₁ := by
  rcases hrun : (step.run id r).run.run w with ⟨fault | s, w₁⟩
  · refine ⟨r, w₁, ?_⟩
    rw [Runs, attempt, run_tryCatch, hrun]
    rfl
  · refine ⟨s, w₁, ?_⟩
    rw [Runs, attempt, run_tryCatch, hrun]

/-- Steps that may be refused always come to an end. -/
theorem Construction.exists_runs_attempt (p : Construction) (id : Nat) (r : Registers Node Word)
    (w : Workspace) : ∃ s w₁, Runs (p.attempt id r) w s w₁ := by
  induction p generalizing r w with
  | nil => exact ⟨r, w, .pure r w⟩
  | cons step rest ih =>
    obtain ⟨s, w₁, hstep⟩ := step.exists_runs_attempt id r w
    obtain ⟨t, w₂, hrest⟩ := ih s w₁
    exact ⟨t, w₂, hstep.bind hrest⟩

theorem Step.follows_attempt (step : Step) (h : step.Bounded) (hr : r.Sized id b) :
    CheckedWork.Follows id b (step.checkedAttempt id r) (step.attempt id r)
      (Registers.Sized id b) := by
  intro w hw
  obtain ⟨hrun, hw₁, hpost⟩ := step.follows h hr w hw
  have hchecked : (step.checkedAttempt id r).run.run.run w = _ := run_tryCatch _ _ w
  rw [hchecked, attempt, run_tryCatch, hrun]
  rcases hplain : (step.run id r).run.run w with ⟨fault | s, w₁⟩
  · rw [hplain] at hw₁
    refine ⟨rfl, hw₁, fun s hs => ?_⟩
    cases hs
    exact hr
  · rw [hplain] at hw₁ hpost
    exact ⟨rfl, hw₁, fun s hs => (hpost s hs).1⟩

/-- **All steps** meet no breach, and leave words that have as many bits as they can have. -/
theorem Construction.follows_attempt (p : Construction) (h : ∀ step ∈ p, step.Bounded)
    (hr : r.Sized id b) :
    CheckedWork.Follows id b (p.checkedAttempt id r) (p.attempt id r) (Registers.Sized id b) :=
  .foldlM (fun _ step hstep hs => step.follows_attempt (h step hstep) hs) hr

/-- All words are 0 in one bit at first. -/
theorem Registers.sized_start (hb : 0 < b) : (Registers.start id).Sized id b :=
  fun _ => ⟨rfl, Nat.one_pos, hb⟩

/-- **Every construction on a new circuit** meets no breach, whichever steps are refused, and ends
as it does over lists. After it all words are words of the circuit and have at least one bit and at
most as many as the bitwidth. Reading one as an integer meets no breach, nor does any further step,
and if that is not refused, all words are as wide after it as the widths before it say. -/
theorem Construction.meets_no_breach {numVariables : Nat} {settings : Settings}
    {w w₀ : Workspace} (hcreate : Runs (Work.create numVariables settings) w id w₀)
    (p : Construction) (hp : ∀ step ∈ p, step.Bounded) :
    ∃ r w₁, Runs (p.attempt id (.start id)) w₀ r w₁ ∧
      (p.checkedAttempt id (.start id)).run.run.run w₀ = (.ok (.ok r), w₁) ∧
      (∀ i, (r.words i).owner = id ∧ 0 < (r.words i).width ∧
        (r.words i).width ≤ settings.bitwidth ∧
        (CheckedWork.value (r.words i)).run.run.run w₁ = ((r.words i).value.map .ok, w₁)) ∧
      ∀ step : Step, step.Bounded →
        (step.checked id r).run.run.run w₁ =
          (((step.run id r).run.run w₁).1.map .ok, ((step.run id r).run.run w₁).2) ∧
        ∀ s w₂, Runs (step.run id r) w₁ s w₂ →
          s.widths = step.widths settings.bitwidth r.widths := by
  obtain ⟨c, hc, hw₀⟩ := Work.circuit_of_runs_create hcreate
  obtain ⟨hid, -, hbits, -⟩ := Circuit.create_eq_ok hc
  rw [← hbits]
  have hstart : (Registers.start id).Sized id c.bitwidth :=
    Registers.sized_start c.bitwidth_pos
  obtain ⟨r, w₁, hrun⟩ := p.exists_runs_attempt id (.start id) w₀
  obtain ⟨hchecked, hw₁, hsized⟩ := p.follows_attempt hp hstart w₀ ⟨c, hw₀, hid, rfl⟩
  have hattempt : (p.attempt id (.start id)).run.run w₀ = (.ok r, w₁) := hrun
  rw [hattempt] at hchecked hw₁ hsized
  have hr := hsized r rfl
  refine ⟨r, w₁, hrun, hchecked, fun i => ⟨(hr i).owner, (hr i).bits.pos, (hr i).bits.le, ?_⟩,
    fun step hstep => ?_⟩
  · obtain ⟨hvalue, -⟩ := follows_value c.bitwidth_le (hr i) w₁ hw₁
    rw [hvalue]
    cases (r.words i).value <;> rfl
  · obtain ⟨hnext, -, hwidths⟩ := step.follows hstep hr w₁ hw₁
    refine ⟨hnext, fun s w₂ hs => ?_⟩
    have hs' : (step.run id r).run.run w₁ = (.ok s, w₂) := hs
    rw [hs'] at hwidths
    exact (hwidths s rfl).2

/-- The quotient of two variable integers after a range that is refused, and then a product. -/
theorem Construction.meets_no_breach_on_five_variables :
    ∃ (p : Construction) (w₀ w₁ : Workspace) (r : Registers Node Word),
      p = [.op (.word 0 (.range 1 4)), .op (.word 1 (.range 4 9)), .op (.word 1 (.range 4 6)),
        .op (.word 2 (.binary .div 0 1))] ∧
      Runs (Work.create 5 ⟨3, true⟩) {} 0 w₀ ∧
      (p.checkedAttempt 0 (.start 0)).run.run.run w₀ = (.ok (.ok r), w₁) ∧
      (∀ i, 0 < (r.words i).width ∧ (r.words i).width ≤ 3) ∧
      ∀ s w₂, Runs ((Step.op (.word 3 (.binary .mul 2 1))).run 0 r) w₁ s w₂ →
        (s.words 3).width = min ((r.words 2).width + (r.words 1).width) 3 := by
  let p : Construction := [.op (.word 0 (.range 1 4)), .op (.word 1 (.range 4 9)),
    .op (.word 1 (.range 4 6)), .op (.word 2 (.binary .div 0 1))]
  have hcreate : Runs (Work.create 5 ⟨3, true⟩) {} 0 _ := rfl
  have hp : ∀ step ∈ p, step.Bounded := by simp [p, Step.Bounded, WordOp.Bounded]
  obtain ⟨r, w₁, -, hchecked, hwords, hnext⟩ := meets_no_breach hcreate p hp
  refine ⟨p, _, w₁, r, rfl, hcreate, hchecked, fun i => ⟨(hwords i).2.1, (hwords i).2.2.1⟩,
    fun s w₂ hs => ?_⟩
  have hproduct : (Step.op (.word 3 (.binary .mul 2 1))).Bounded := trivial
  exact congrFun ((hnext _ hproduct).2 s w₂ hs) 3

end IntCircuit
