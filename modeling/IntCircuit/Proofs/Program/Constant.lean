import IntCircuit.Proofs.Bits.Constant
import IntCircuit.Proofs.Program.Basic
import IntCircuit.Proofs.Solve
import IntCircuit.Proofs.Word.Literal
import IntCircuit.Proofs.Word.Operations

/-!
# Programs without variables

A program that reads no variable makes constants only. It makes no gate, whatever has been made in
its circuit before, and none of its nodes needs a search.

## Main definitions

* `Program.Closed`: programs that read no variable
* `Registers.Constant`: registers that hold constants of one circuit
* `Work.Folds`: operations that leave the workspace as it is

## Main results

* `Work.folds_build`: making gates
* `NodeOp.folds`, `WordOp.folds`, `Instruction.folds`: what one operation does
* `Program.folds_of_closed`: all operations
-/

namespace IntCircuit

/-- A single variable is what a closed program does not read. -/
def NodeOp.Closed : NodeOp → Prop
  | var _ => False
  | _ => True

/-- Nor does it read a range of variables. -/
def WordOp.Closed : WordOp → Prop
  | range _ _ => False
  | _ => True

def Instruction.Closed : Instruction → Prop
  | node _ op => op.Closed
  | word _ op => op.Closed

/-- A program that reads no variable. -/
def Program.Closed (p : Program) : Prop :=
  ∀ i ∈ p, i.Closed

/-- A word of constants in the circuit at the number `id`. -/
structure Word.Constant (id : Nat) (x : Word) : Prop where
  owner : x.owner = id
  isConst : x.isConst = true

theorem Word.Constant.exists_value {id : Nat} {x : Word} (hx : x.Constant id) :
    ∃ n, x.value = .ok n :=
  exists_value_iff.mpr hx.isConst

/-- Registers that hold constants only. -/
structure Registers.Constant (id : Nat) (r : Registers Node Word) : Prop where
  nodes : ∀ i, (r.nodes i).isConst = true
  words : ∀ i, (r.words i).Constant id

namespace Registers.Constant

variable {id : Nat} {r : Registers Node Word}

theorem start (id : Nat) : (Registers.start id).Constant id :=
  ⟨fun _ => rfl, fun _ => ⟨rfl, rfl⟩⟩

theorem setNode (hr : r.Constant id) (target : Nat) {n : Node} (hn : n.isConst = true) :
    (r.setNode target n).Constant id := by
  refine ⟨fun i => ?_, hr.words⟩
  by_cases hi : i = target
  · subst hi
    simpa [Registers.setNode] using hn
  · simpa [Registers.setNode, hi] using hr.nodes i

theorem setWord (hr : r.Constant id) (target : Nat) {x : Word} (hx : x.Constant id) :
    (r.setWord target x).Constant id := by
  refine ⟨hr.nodes, fun i => ?_⟩
  by_cases hi : i = target
  · subst hi
    simpa [Registers.setWord] using hx
  · simpa [Registers.setWord, hi] using hr.words i

end Registers.Constant

/-! ## Operations that make no gate -/

namespace Work

variable {α β : Type} {id : Nat} {m : Work α} {f : α → Work β} {mid : α → Prop} {last : β → Prop}

/-- On every workspace with a circuit at the number `id` the operation finds no fault, leaves
everything as it is, and its result is as wanted. -/
def Folds (id : Nat) (m : Work α) (post : α → Prop) : Prop :=
  ∀ (w : Workspace) (c : Circuit), w.circuits[id]? = some c → c.id = id → ∃ a, Runs m w a w ∧ post a

namespace Folds

protected theorem pure {a : α} (h : mid a) : Folds id (pure a) mid :=
  fun w _ _ _ => ⟨a, .pure a w, h⟩

protected theorem bind (hm : Folds id m mid) (hf : ∀ a, mid a → Folds id (f a) last) :
    Folds id (m >>= f) last := by
  intro w c hw hid
  obtain ⟨a, hrun, ha⟩ := hm w c hw hid
  obtain ⟨b, hrun', hb⟩ := hf a ha w c hw hid
  exact ⟨b, hrun.bind hrun', hb⟩

/-- What makes no gate can be put together. -/
theorem judgement (id : Nat) : Judgement (Folds id) :=
  ⟨.pure, .bind⟩

end Folds

theorem folds_circuit : Folds id (circuit id) fun c => c.id = id :=
  fun _ c hw hid => ⟨c, runs_circuit hw, hid⟩

theorem folds_build {gates : Build α} (h : Build.Folds gates mid) : Folds id (build id gates) mid :=
  fun _ c hw _ => ⟨_, runs_build_of_same hw (h c).1, (h c).2⟩

end Work

namespace Word

variable {id : Nat} {x y : Word}

theorem folds_requireSame (hx : x.owner = id) (hy : y.owner = id) :
    Work.Folds id (requireSame x y) fun _ => True := by
  rw [requireSame, if_pos (hx.trans hy.symm)]
  exact .pure trivial

theorem folds_unary {op : Bits → Build Bits}
    (hop : ∀ {x : Bits}, x.isConst = true → Build.Folds (op x) fun z => z.isConst = true)
    (hx : x.Constant id) : Work.Folds id (unary op x) (Constant id) := by
  rw [unary, hx.owner]
  exact (Work.folds_build (hop hx.isConst)).bind fun _ hz => .pure ⟨rfl, hz⟩

theorem folds_binary {op : Bits → Bits → Build Bits}
    (hop : ∀ {x y : Bits}, x.isConst = true → y.isConst = true →
      Build.Folds (op x y) fun z => z.isConst = true)
    (hx : x.Constant id) (hy : y.Constant id) :
    Work.Folds id (binary op x y) (Constant id) := by
  rw [binary, hx.owner]
  refine (folds_requireSame hx.owner hy.owner).bind fun _ _ => ?_
  exact (Work.folds_build (hop hx.isConst hy.isConst)).bind fun _ hz => .pure ⟨rfl, hz⟩

theorem folds_relation {op : Bits → Bits → Build Node}
    (hop : ∀ {x y : Bits}, x.isConst = true → y.isConst = true →
      Build.Folds (op x y) fun n => n.isConst = true)
    (hx : x.Constant id) (hy : y.Constant id) :
    Work.Folds id (relation op x y) fun n => n.isConst = true := by
  rw [relation, hx.owner]
  refine (folds_requireSame hx.owner hy.owner).bind fun _ _ => ?_
  exact Work.folds_build (hop hx.isConst hy.isConst)

theorem folds_joinAll (op : Connective) {others : List Word} (hx : x.Constant id)
    (hothers : ∀ y ∈ others, y.Constant id) :
    Work.Folds id (joinAll op x others) (Constant id) := by
  have hforM := (Work.Folds.judgement id).forM fun y hy =>
    folds_requireSame hx.owner (hothers y hy).owner
  have hbits : ∀ y ∈ others.map Word.bits, y.isConst = true :=
    List.forall_mem_map.mpr fun y hy => (hothers y hy).isConst
  rw [joinAll, hx.owner]
  refine hforM.bind fun _ _ => ?_
  exact (Work.folds_build (Bits.folds_joinAll op hx.isConst hbits)).bind fun _ hz => .pure ⟨rfl, hz⟩

end Word

variable {id : Nat} {x y : Word}

theorem UnaryOp.folds (op : UnaryOp) (hx : x.Constant id) :
    Work.Folds id (op.run x) (Word.Constant id) := by
  cases op with
  | neg => exact Word.folds_unary Bits.folds_neg hx
  | abs => exact Word.folds_unary Bits.folds_abs hx
  | signum => exact Word.folds_unary Bits.folds_signum hx
  | not => exact Word.folds_unary Bits.folds_not hx

theorem BinaryOp.folds (op : BinaryOp) (hx : x.Constant id) (hy : y.Constant id) :
    Work.Folds id (op.run x y) (Word.Constant id) := by
  cases op with
  | add => exact Word.folds_binary Bits.folds_add hx hy
  | sub => exact Word.folds_binary Bits.folds_sub hx hy
  | mul => exact Word.folds_binary Bits.folds_mul hx hy
  | div => exact Word.folds_binary Bits.folds_div hx hy
  | mod => exact Word.folds_binary Bits.folds_mod hx hy
  | shiftLeft => exact Word.folds_binary Bits.folds_shiftLeft hx hy
  | shiftRight => exact Word.folds_binary Bits.folds_shiftRight hx hy
  | shiftRightSigned => exact Word.folds_binary Bits.folds_shiftRightSigned hx hy
  | and => exact Word.folds_binary Bits.folds_and hx hy
  | or => exact Word.folds_binary Bits.folds_or hx hy
  | xor => exact Word.folds_binary Bits.folds_xor hx hy

theorem FoldOp.folds (op : FoldOp) (hx : x.Constant id) {others : List Word}
    (hothers : ∀ y ∈ others, y.Constant id) :
    Work.Folds id (op.run x others) (Word.Constant id) := by
  cases op with
  | sum =>
    exact (Work.Folds.judgement id).combineTree (fun _ _ => Word.folds_binary Bits.folds_add) hx
      hothers
  | product =>
    exact (Work.Folds.judgement id).combineTree (fun _ _ => Word.folds_binary Bits.folds_mul) hx
      hothers
  | join op => exact Word.folds_joinAll op hx hothers

theorem Relation.folds (op : Relation) (hx : x.Constant id) (hy : y.Constant id) :
    Work.Folds id (op.run x y) fun n => n.isConst = true := by
  cases op with
  | eq => exact Word.folds_relation Bits.folds_eq hx hy
  | ne => exact Word.folds_relation Bits.folds_ne hx hy
  | lt => exact Word.folds_relation Bits.folds_lt hx hy
  | le => exact Word.folds_relation Bits.folds_le hx hy
  | gt => exact Word.folds_relation Bits.folds_lt hy hx
  | ge => exact Word.folds_relation Bits.folds_le hy hx

/-! ## Operations on registers -/

theorem Circuit.isConst_literalIf (c : Circuit) (n : Int) {one : Node} (hone : one.isConst = true) :
    (c.literalIf n one).isConst = true := by
  refine Bits.isConst_iff.mpr fun m hm => ?_
  obtain ⟨bit, -, rfl⟩ := List.mem_map.mp hm
  cases bit with
  | false => rfl
  | true => exact hone

section Run

variable {r : Registers Node Word}

theorem NodeOp.folds {op : NodeOp} (hclosed : op.Closed) (hr : r.Constant id) :
    Work.Folds id (op.run id r) fun n => n.isConst = true := by
  cases op with
  | const value => exact .pure rfl
  | var label => exact hclosed.elim
  | relation op x y => exact op.folds (hr.words x) (hr.words y)
  | call gates =>
    refine Work.folds_build (GateCall.folds _ ?_)
    rw [GateCall.operands_map]
    exact List.forall_mem_map.mpr fun i _ => hr.nodes i

theorem WordOp.folds {op : WordOp} (hclosed : op.Closed) (hr : r.Constant id) :
    Work.Folds id (op.run id r) (Word.Constant id) := by
  cases op with
  | literal n =>
    exact Work.folds_circuit.bind fun c hc => .pure ⟨hc, c.isConst_literalIf n rfl⟩
  | literalIf n one =>
    exact Work.folds_circuit.bind fun c hc => .pure ⟨hc, c.isConst_literalIf n (hr.nodes one)⟩
  | range start stop => exact hclosed.elim
  | unary op x => exact op.folds (hr.words x)
  | binary op x y => exact op.folds (hr.words x) (hr.words y)
  | choose condition x y =>
    exact Word.folds_binary (Bits.folds_choose (hr.nodes condition)) (hr.words x) (hr.words y)
  | fold op x others =>
    exact op.folds (hr.words x) (List.forall_mem_map.mpr fun i _ => hr.words i)

/-- **One operation** on constants. -/
theorem Instruction.folds {instruction : Instruction} (hclosed : instruction.Closed)
    (hr : r.Constant id) :
    Work.Folds id (instruction.run id r) (Registers.Constant id) := by
  cases instruction with
  | node target op => exact (NodeOp.folds hclosed hr).bind fun _ hn => .pure (hr.setNode target hn)
  | word target op => exact (WordOp.folds hclosed hr).bind fun _ hx => .pure (hr.setWord target hx)

/-- All operations of a program. -/
theorem Program.folds_run {p : Program} (hclosed : p.Closed) (hr : r.Constant id) :
    Work.Folds id (p.run id r) (Registers.Constant id) :=
  (Work.Folds.judgement id).foldlM (fun _ i hi hr => Instruction.folds (hclosed i hi) hr) hr

end Run

/-- **A program without variables makes no gate.** On any circuit, with gates shared or not and
whatever has been made there, a program that reads no variable runs from constants without a fault.
After every number of operations the workspace is as it was before, each register holds a constant
or a word of constants, which has a value, and a search for a node leaves every back end as it
is. -/
theorem Program.folds_of_closed {p : Program} (hclosed : p.Closed) {w : Workspace} {c : Circuit}
    {id : Nat} (hc : w.circuits[id]? = some c) (hid : c.id = id) {r : Registers Node Word}
    (hr : r.Constant id) :
    ∀ q : Program, q <+: p → ∃ s, Runs (q.run id r) w s w ∧
      (∀ i, (s.nodes i).isConst = true ∧ (s.words i).isConst = true ∧
        ∃ n, (s.words i).value = .ok n) ∧
      ∀ (β : Type) [BackEnd β] (b : β) (i : Nat),
        ∃ solution, Runs (solveWith c (s.nodes i)) b solution b := by
  rintro q ⟨rest, rfl⟩
  obtain ⟨s, hrun, hs⟩ := folds_run (fun i hi => hclosed i (List.mem_append_left rest hi)) hr w c
    hc hid
  refine ⟨s, hrun, fun i => ⟨hs.nodes i, (hs.words i).isConst, (hs.words i).exists_value⟩,
    fun β _ b i => ?_⟩
  obtain ⟨value, hvalue⟩ := Node.eq_const_of_isConst (hs.nodes i)
  rw [hvalue]
  exact ⟨_, solveWith_const c value b⟩

/-- A quotient by 0 that is compared, chosen and added up, in a circuit that has gates and shares
none. -/
theorem Program.folds_of_closed_quotient :
    ∃ (w : Workspace) (c : Circuit) (r : Registers Node Word),
      w.circuits[0]? = some c ∧ c.sharing = false ∧ c.numGates = 4 ∧
      Runs (Program.run 0 [.word 0 (.literal 5), .word 1 (.literal 0),
        .word 2 (.binary .div 0 1), .node 0 (.relation .lt 2 0), .word 3 (.choose 0 2 0),
        .word 4 (.fold .sum 3 [0, 1, 2])] (.start 0)) w r w ∧
      (r.nodes 0).isConst = true ∧ ∃ n, (r.words 4).value = .ok n := by
  let c : Circuit := ((Build.sum (.var 1) (.var 2) (.var 3)).run
    ⟨0, 3, 4, false, by decide, by decide, by decide, #[], ∅⟩).2
  let p : Program := [.word 0 (.literal 5), .word 1 (.literal 0), .word 2 (.binary .div 0 1),
    .node 0 (.relation .lt 2 0), .word 3 (.choose 0 2 0), .word 4 (.fold .sum 3 [0, 1, 2])]
  have hclosed : p.Closed := by
    simp [p, Program.Closed, Instruction.Closed, NodeOp.Closed, WordOp.Closed]
  obtain ⟨r, hrun, hr, -⟩ := Program.folds_of_closed hclosed (w := ⟨#[c]⟩) (c := c) rfl rfl
    (.start 0) p List.prefix_rfl
  exact ⟨⟨#[c]⟩, c, r, rfl, rfl, by decide, hrun, (hr 0).1, (hr 4).2.2⟩

end IntCircuit
