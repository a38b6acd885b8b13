import IntCircuit.Proofs.Program.Basic
import IntCircuit.Proofs.Word.Operations

/-!
# What programs make

Every operation finds no fault if its variables are the circuit's, and what it makes stands for what
the operation says over truth values and integers. So the registers stand for what the program says
they do, after each operation and after all of them.

## Main definitions

* `Registers.Stands`: nodes and words of a circuit that stand for truth values and integers

## Main results

* `NodeOp.ensures_run`, `WordOp.ensures_run`: the result of an operation
* `Instruction.ensures_run`: what one operation preserves
* `Program.ensures_stands`, `Program.ensures_run`: what a program preserves
-/

namespace IntCircuit

variable {id : Nat} {c d : Circuit} {pre : Prop} {x y : Word} {m n : (Nat → Bool) → Int}

/-! ## Operations on words -/

theorem UnaryOp.ensures_run (op : UnaryOp) (hx : x.owner = id)
    (h : pre → c.Sound ∧ c.Denotes x.bits m) :
    Work.Ensures id c (op.run x) (fun z => z.owner = id) pre fun z d =>
      d.Denotes z.bits fun σ => wrap d.bitwidth (op.onInt (m σ)) := by
  cases op with
  | neg => exact Word.ensures_unary hx fun hp => Bits.ensures_neg (h hp).1 (h hp).2
  | abs => exact Word.ensures_unary hx fun hp => Bits.ensures_abs (h hp).1 (h hp).2
  | signum =>
    exact (Word.ensures_unary hx fun hp => Bits.ensures_signum (h hp).1 (h hp).2).imp
      fun _ _ hz => hz.wrap
  | not =>
    exact (Word.ensures_unary hx fun hp => Bits.ensures_not (h hp).1 (h hp).2).imp
      fun _ _ hz => hz.wrap

theorem BinaryOp.ensures_run (op : BinaryOp) (hx : x.owner = id) (hy : y.owner = id)
    (h : pre → c.Sound ∧ c.Denotes x.bits m ∧ c.Denotes y.bits n) :
    Work.Ensures id c (op.run x y) (fun z => z.owner = id) pre fun z d =>
      d.Denotes z.bits fun σ => wrap d.bitwidth (op.onInt d.bitwidth (m σ) (n σ)) := by
  cases op with
  | add => exact Word.ensures_binary hx hy h fun _ _ _ => Bits.ensures_add
  | sub => exact Word.ensures_binary hx hy h fun _ _ _ => Bits.ensures_sub
  | mul => exact Word.ensures_binary hx hy h fun _ _ _ => Bits.ensures_mul
  | div => exact Word.ensures_binary hx hy h fun _ _ _ => Bits.ensures_div
  | mod => exact Word.ensures_binary hx hy h fun _ _ _ => Bits.ensures_mod
  | shiftLeft => exact Word.ensures_binary hx hy h fun _ _ _ => Bits.ensures_shiftLeft
  | shiftRight => exact Word.ensures_binary hx hy h fun _ _ _ => Bits.ensures_shiftRight
  | shiftRightSigned =>
    exact Word.ensures_binary hx hy h fun _ _ _ => Bits.ensures_shiftRightSigned
  -- an operation at every position makes nothing that has to be wrapped
  | and =>
    exact (Word.ensures_binary hx hy h fun _ _ _ => Bits.ensures_and).imp
      fun _ _ hz => hz.wrap
  | or =>
    exact (Word.ensures_binary hx hy h fun _ _ _ => Bits.ensures_or).imp
      fun _ _ hz => hz.wrap
  | xor =>
    exact (Word.ensures_binary hx hy h fun _ _ _ => Bits.ensures_xor).imp
      fun _ _ hz => hz.wrap

theorem Word.combines_add : Combines add (· + ·) where
  ensures _ _ _ _ hx hy := ensures_binary hx hy (fun h => h) fun _ _ _ => Bits.ensures_add
  congr _ _ _ _ _ ha hb := ha.add hb
  assoc a b c := (add_assoc a b c).symm

theorem Word.combines_mul : Combines mul (· * ·) where
  ensures _ _ _ _ hx hy := ensures_binary hx hy (fun h => h) fun _ _ _ => Bits.ensures_mul
  congr _ _ _ _ _ ha hb := ha.mul hb
  assoc a b c := (mul_assoc a b c).symm

theorem FoldOp.ensures_run (op : FoldOp) {others : List Word} (hx : x.owner = id)
    (howner : ∀ y ∈ others, y.owner = id)
    (h : pre → c.Sound ∧ c.OwnsWord x ∧ ∀ y ∈ others, c.OwnsWord y) :
    Work.Ensures id c (op.run x others) (fun z => z.owner = id) pre fun z d =>
      d.Denotes z.bits fun σ =>
        wrap d.bitwidth ((others.map (Word.denote σ)).foldl op.onInt (x.denote σ)) := by
  cases op with
  | sum => exact (Word.ensures_combineTree Word.combines_add id c hx howner).given h
  | product => exact (Word.ensures_combineTree Word.combines_mul id c hx howner).given h
  | join op =>
    exact ((Word.ensures_joinAll op hx howner).given h).imp fun _ _ hz => hz.wrap

theorem Relation.ensures_run (op : Relation) (hx : x.owner = id) (hy : y.owner = id)
    (h : pre → c.Sound ∧ c.Denotes x.bits m ∧ c.Denotes y.bits n) :
    Work.Ensures id c (op.run x y) (fun _ => True) pre fun r d =>
      d.Reads r fun σ => op.holds (m σ) (n σ) := by
  have hswap (hp : pre) : c.Sound ∧ c.Denotes y.bits n ∧ c.Denotes x.bits m :=
    ⟨(h hp).1, (h hp).2.2, (h hp).2.1⟩
  cases op with
  | eq => exact Word.ensures_relation hx hy h fun _ => Bits.ensures_eq
  | ne => exact Word.ensures_relation hx hy h fun _ => Bits.ensures_ne
  | lt => exact Word.ensures_relation hx hy h fun _ => Bits.ensures_lt
  | le => exact Word.ensures_relation hx hy h fun _ => Bits.ensures_le
  | gt => exact Word.ensures_relation hy hx hswap fun _ => Bits.ensures_lt
  | ge => exact Word.ensures_relation hy hx hswap fun _ => Bits.ensures_le

/-! ## Registers -/

/-- Nodes and words of the circuit stand for truth values and integers. -/
structure Registers.Stands (d : Circuit) (r : Registers Node Word)
    (v : (Nat → Bool) → Registers Bool Int) : Prop where
  nodes : ∀ i, d.Reads (r.nodes i) fun σ => (v σ).nodes i
  words : ∀ i, d.Denotes (r.words i).bits fun σ => (v σ).words i

namespace Registers.Stands

variable {r : Registers Node Word} {v : (Nat → Bool) → Registers Bool Int}

theorem mono (h : c ≤ d) (hr : r.Stands c v) : r.Stands d v :=
  ⟨fun i => (hr.nodes i).mono h, fun i => (hr.words i).mono h⟩

/-- Registers stand for false and 0 at first. -/
theorem start (c : Circuit) (id : Nat) : (Registers.start id).Stands c fun _ => .zero := by
  constructor
  · intro i
    exact ⟨c.owns_const false, fun σ => Node.eval_const σ false⟩
  · intro i
    exact Bits.denotes_zero c

theorem setNode {b : Node} {value : (Nat → Bool) → Bool} (hr : r.Stands d v)
    (hb : d.Reads b value) (target : Nat) :
    (r.setNode target b).Stands d fun σ => (v σ).setNode target (value σ) := by
  refine ⟨fun i => ?_, hr.words⟩
  by_cases hi : i = target
  · subst hi
    simpa [Registers.setNode] using hb
  · simpa [Registers.setNode, hi] using hr.nodes i

theorem setWord {value : (Nat → Bool) → Int} (hr : r.Stands d v) (hx : d.Denotes x.bits value)
    (target : Nat) : (r.setWord target x).Stands d fun σ => (v σ).setWord target (value σ) := by
  refine ⟨hr.nodes, fun i => ?_⟩
  by_cases hi : i = target
  · subst hi
    simpa [Registers.setWord] using hx
  · simpa [Registers.setWord, hi] using hr.words i

end Registers.Stands

/-! ## Operations on registers -/

section Run

variable {r : Registers Node Word} {v : (Nat → Bool) → Registers Bool Int}

/-- **A node that an operation makes** has the truth value of the operation. -/
theorem NodeOp.ensures_run (op : NodeOp) (howner : ∀ i, (r.words i).owner = id)
    (hfits : op.Fits c.numVariables) :
    Work.Ensures id c (op.run id r) (fun _ => True) (c.Sound ∧ r.Stands c v) fun b d =>
      d.Reads b fun σ => op.interpret σ (v σ) := by
  cases op with
  | const value =>
    exact .pure trivial fun h => ⟨h.1, c.owns_const value, fun σ => Node.eval_const σ value⟩
  | var label =>
    obtain ⟨hpos, hle⟩ := hfits
    have hown : c.Owns (.var label.toNat) := ⟨by omega, by omega⟩
    refine ((Work.ensures_circuit id c).given And.left).bind fun a d hcd ha => ?_
    subst ha
    exact Work.ensures_ofExcept (if_pos ⟨hpos, hle⟩) trivial fun h =>
      ⟨h.2.1, hown.mono hcd, fun σ => Node.eval_var σ label.toNat⟩
  | relation op x y =>
    exact op.ensures_run (howner x) (howner y) fun h => ⟨h.1, h.2.words x, h.2.words y⟩
  | call gates =>
    rw [NodeOp.run]
    refine Work.ensures_build fun h => (GateCall.ensures_truth h.1 ?_).mono
      fun b d _ _ hb => ⟨hb.owns, ?_⟩
    · intro b hb
      rw [GateCall.operands_map] at hb
      obtain ⟨i, -, rfl⟩ := List.mem_map.mp hb
      exact (h.2.nodes i).owns
    · intro σ
      rw [hb.eval, GateCall.truth_map]
      exact congrArg (gates.truth ·) (funext fun i => (h.2.nodes i).eval σ)

/-- **A word that an operation makes** stands for the integer of the operation. -/
theorem WordOp.ensures_run (op : WordOp) (hid : c.id = id) (howner : ∀ i, (r.words i).owner = id)
    (hfits : op.Fits c.numVariables c.bitwidth) :
    Work.Ensures id c (op.run id r) (fun z => z.owner = id) (c.Sound ∧ r.Stands c v) fun z d =>
      d.Denotes z.bits fun σ => op.interpret d.bitwidth σ (v σ) := by
  have hcircuit := (Work.ensures_circuit id c).given (And.left (b := r.Stands c v))
  cases op with
  | literal n =>
    refine hcircuit.bind fun a d hcd ha => ?_
    subst ha
    refine .pure hid fun h => ⟨h.2.1, ?_⟩
    refine ((a.denotes_literal n (a.owns_const true)).mono hcd).congr fun σ => ?_
    rw [Node.eval_const, if_pos rfl, WordOp.interpret, hcd.bitwidth]
  | literalIf n one =>
    refine hcircuit.bind fun a d hcd ha => ?_
    subst ha
    refine .pure hid fun h => ⟨h.2.1, ?_⟩
    have hone := h.1.2.nodes one
    refine ((a.denotes_literal n hone.owns).mono hcd).congr fun σ => ?_
    rw [hone.eval, WordOp.interpret, hcd.bitwidth]
  | range start stop =>
    obtain ⟨hstart, hstop, hle, hwidth⟩ := hfits
    refine hcircuit.bind fun a d hcd ha => ?_
    subst ha
    -- neither check finds a fault
    have hok : a.wordVariable start stop =
        .ok ⟨a.id, (List.range' start (stop - start)).map .var⟩ := by
      rw [Circuit.wordVariable, if_neg (by omega), if_neg (by omega)]
    exact Work.ensures_ofExcept hok hid fun h =>
      ⟨h.2.1, (Circuit.denotes_range hstart hstop hle hwidth).mono hcd⟩
  | unary op x => exact op.ensures_run (howner x) fun h => ⟨h.1, h.2.words x⟩
  | binary op x y =>
    exact op.ensures_run (howner x) (howner y) fun h => ⟨h.1, h.2.words x, h.2.words y⟩
  | choose condition x y =>
    rw [WordOp.run, Word.choose]
    have hwords (h : c.Sound ∧ r.Stands c v) :
        c.Sound ∧ (c.Denotes (r.words x).bits fun σ => (v σ).words x) ∧
          c.Denotes (r.words y).bits fun σ => (v σ).words y :=
      ⟨h.1, h.2.words x, h.2.words y⟩
    refine (Word.ensures_binary (howner x) (howner y) hwords fun h d hcd hd =>
      Bits.ensures_choose hd ((h.2.nodes condition).owns.mono hcd)).mono (fun _ h => h)
      (fun h => h) fun z e _ _ h hz => hz.congr fun σ => ?_
    rw [(h.2.nodes condition).eval, WordOp.interpret]
  | fold op x others =>
    have hwords (i : Nat) (h : r.Stands c v) : c.OwnsWord (r.words i) := (h.words i).ownsWord
    refine (op.ensures_run (howner x) (?_)
      fun h => ⟨h.1, hwords x h.2, ?_⟩).mono (fun _ h => h) (fun h => h)
      fun z d _ _ h hz => hz.congr ?_
    · intro y hy
      obtain ⟨i, -, rfl⟩ := List.mem_map.mp hy
      exact howner i
    · intro y hy
      obtain ⟨i, -, rfl⟩ := List.mem_map.mp hy
      exact hwords i h.2
    · intro σ
      have hvalue (i : Nat) : (r.words i).denote σ = (v σ).words i := (h.2.words i).denote σ
      rw [WordOp.interpret, List.map_map, hvalue x]
      exact congrArg (fun values => wrap d.bitwidth (values.foldl op.onInt ((v σ).words x)))
        (List.map_congr_left fun i _ => hvalue i)

/-- **One operation** leaves registers that stand for what the program says of them. -/
theorem Instruction.ensures_run (i : Instruction) (hid : c.id = id)
    (howner : ∀ j, (r.words j).owner = id) (hfits : i.Fits c.numVariables c.bitwidth) :
    Work.Ensures id c (i.run id r) (fun r => ∀ j, (r.words j).owner = id)
      (c.Sound ∧ r.Stands c v) fun r d => r.Stands d fun σ => i.interpret d.bitwidth σ (v σ) := by
  cases i with
  | node target op =>
    exact (op.ensures_run howner hfits).bind fun b d hcd _ =>
      .pure howner fun ⟨⟨_, hr⟩, hd, hb⟩ => ⟨hd, (hr.mono hcd).setNode hb target⟩
  | word target op =>
    exact (op.ensures_run hid howner hfits).bind fun z d hcd hz =>
      .pure (Registers.owner_setWord howner hz target) fun ⟨⟨_, hr⟩, hd, hz'⟩ =>
        ⟨hd, (hr.mono hcd).setWord hz' target⟩

/-- **All operations of a program**, by induction on the program. -/
theorem Program.ensures_stands (p : Program) (hid : c.id = id)
    (howner : ∀ j, (r.words j).owner = id) (hfits : p.Fits c.numVariables c.bitwidth) :
    Work.Ensures id c (p.run id r) (fun r => ∀ j, (r.words j).owner = id)
      (c.Sound ∧ r.Stands c v) fun r d =>
        r.Stands d fun σ => p.foldl (Instruction.interpret d.bitwidth σ) (v σ) := by
  induction p generalizing c r v with
  | nil => exact .pure howner fun h => h
  | cons i rest ih =>
    rw [Program.run, List.foldlM_cons]
    refine (i.ensures_run hid howner (hfits i List.mem_cons_self)).bind fun s d hcd hs => ?_
    have hfits' : Program.Fits d.numVariables d.bitwidth rest := fun j hj => by
      rw [hcd.numVariables, hcd.bitwidth]
      exact hfits j (List.mem_cons_of_mem i hj)
    refine ((ih (hcd.id.trans hid) hs hfits').given fun h => h.2).mono (fun _ h => h)
      (fun h => h) fun t e hde _ _ ht => ?_
    -- the bitwidth is the same at the end as in between
    rw [← hde.bitwidth] at ht
    exact ht

/-- As long as labels are positive, a program leaves the circuit valid. -/
theorem Program.ensures_run (p : Program) (hid : c.id = id)
    (howner : ∀ j, (r.words j).owner = id) (hfits : p.Fits c.numVariables c.bitwidth)
    (w : Workspace) (hw : w.circuits[id]? = some c) :
    ∃ s d w₁, Runs (p.run id r) w s w₁ ∧ w₁.circuits[id]? = some d ∧ c ≤ d ∧
      (∀ j, (s.words j).owner = id) ∧
      (d.maxLabel ≤ labelLimit → c.Valid ∧ r.Stands c v → c.Reaches d ∧ d.Valid ∧
        s.Stands d fun σ => p.foldl (Instruction.interpret d.bitwidth σ) (v σ)) := by
  obtain ⟨s, d, w₁, hrun, hw₁, hcd, hs, hstands⟩ :=
    p.ensures_stands (v := v) hid howner hfits w hw
  refine ⟨s, d, w₁, hrun, hw₁, hcd, hs, fun hl hc => ?_⟩
  obtain ⟨hreach, hsound, hr⟩ := hstands (lt_labelModulus hl) ⟨hc.1, hc.2⟩
  exact ⟨hreach, ⟨hsound, hl⟩, hr⟩

end Run

end IntCircuit
