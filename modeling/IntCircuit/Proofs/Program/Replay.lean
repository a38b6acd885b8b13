import IntCircuit.Proofs.Circuit.Sharing
import IntCircuit.Proofs.Program.Basic
import IntCircuit.Proofs.Word.Operations

/-!
# Programs done again

On a circuit that shares gates, an operation that is done again ends as it has ended before and
makes no gate, whatever has been made in between. The second time it meets the same nodes, so it
takes the same decisions, and every gate that it asks for is found.

## Main definitions

* `Step`, `Construction`: programs that also take words apart and put words together
* `Workspace.Shares`: a workspace with a circuit that shares gates
* `Work.Replays`: operations that end in the same way when they are done again

## Main results

* `Work.Replays.both`, `Work.Replays.bind`: one operation after another
* `Work.replays_build`, `Work.replays_look`: making gates, and looking at the circuit
* `NodeOp.replays`, `WordOp.replays`, `Step.replays`: what one step does
* `Construction.replay`: a construction done again is the same result for result
-/

namespace IntCircuit

/-! ## Constructions -/

/-- An operation of a program, a bit of a word, or the word of some nodes. -/
inductive Step where
  | op (instruction : Instruction)
  | bit (target x i : Nat)
  | fullBit (target x i : Nat)
  | bits (target : Nat) (nodes : List Nat)

/-- Steps in the order in which they are done. -/
abbrev Construction := List Step

/-- The registers after a step on the circuit at the number `id`. -/
def Step.run (id : Nat) (r : Registers Node Word) : Step → Work (Registers Node Word)
  | op instruction => instruction.run id r
  | bit target x i => pure (r.setNode target ((r.words x).bit i))
  | fullBit target x i => do
    let c ← Work.circuit id
    return r.setNode target (← MonadExcept.ofExcept (c.fullBit (r.words x) i))
  | bits target nodes => do
    let c ← Work.circuit id
    return r.setWord target (← MonadExcept.ofExcept (c.wordOfBits (nodes.map r.nodes)))

/-- The registers after all steps. -/
def Construction.run (id : Nat) (p : Construction) (r : Registers Node Word) :
    Work (Registers Node Word) :=
  p.foldlM (Step.run id) r

/-! ## Operations done again -/

/-- The circuit `c`, which shares gates, is at its number. -/
structure Workspace.Shares (w : Workspace) (id : Nat) (c : Circuit) : Prop where
  found : w.circuits[id]? = some c
  id : c.id = id
  sharing : c.sharing = true

namespace Work

variable {α β : Type} {id : Nat} {m : Work α} {f : α → Work β} {always : α → Prop}
  {last : β → Prop}

/-- On every workspace with a circuit that shares gates at the number `id`, the operation leaves a
later state of the circuit, and a result that is `always` as wanted unless it finds a fault. Where a
still later state is at that number, it ends in the same way and leaves everything as it is. -/
def Replays (id : Nat) (m : Work α) (always : α → Prop) : Prop :=
  ∀ (w : Workspace) (c : Circuit), w.Shares id c →
    ∃ d, (m.run.run w).2.Shares id d ∧ c ≤ d ∧ (∀ a, (m.run.run w).1 = .ok a → always a) ∧
      ∀ (w' : Workspace) (e : Circuit), w'.Shares id e → d ≤ e →
        m.run.run w' = ((m.run.run w).1, w')

namespace Replays

protected theorem pure {a : α} (h : always a) : Replays id (pure a) always := by
  intro w c hw
  refine ⟨c, hw, le_refl c, fun b hb => ?_, fun w' e _ _ => rfl⟩
  cases hb
  exact h

protected theorem throw (fault : Fault) : Replays id (throw fault : Work α) always := by
  intro w c hw
  refine ⟨c, hw, le_refl c, fun b hb => ?_, fun w' e _ _ => rfl⟩
  cases hb

/-- One operation after another: after both, the first one and both are done again. -/
theorem both (hm : Replays id m always) (hf : ∀ a, always a → Replays id (f a) last)
    {w : Workspace} {c : Circuit} (hw : w.Shares id c) :
    ∃ d, ((m >>= f).run.run w).2.Shares id d ∧ c ≤ d ∧
      (∀ b, ((m >>= f).run.run w).1 = .ok b → last b) ∧
      ∀ (w' : Workspace) (e : Circuit), w'.Shares id e → d ≤ e →
        m.run.run w' = ((m.run.run w).1, w') ∧
          (m >>= f).run.run w' = (((m >>= f).run.run w).1, w') := by
  obtain ⟨d, hd, hcd, halways, hagain⟩ := hm w c hw
  rw [run_bind]
  rcases hrun : m.run.run w with ⟨fault | a, w₁⟩
  · -- a fault is found again
    rw [hrun] at hd hagain
    refine ⟨d, hd, hcd, ?_, fun w' e hw' hde => ?_⟩
    · intro b hb
      cases hb
    · rw [run_bind, hagain w' e hw' hde]
      exact ⟨rfl, rfl⟩
  · rw [hrun] at hd halways hagain
    obtain ⟨e, he, hde, hlast, hagain'⟩ := hf a (halways a rfl) w₁ d hd
    refine ⟨e, he, hcd.trans hde, hlast, fun w' g hw' heg => ?_⟩
    rw [run_bind, hagain w' g hw' (hde.trans heg)]
    exact ⟨rfl, hagain' w' g hw' heg⟩

/-- One operation after another. -/
protected theorem bind (hm : Replays id m always) (hf : ∀ a, always a → Replays id (f a) last) :
    Replays id (m >>= f) last := by
  intro w c hw
  obtain ⟨d, hd, hcd, hlast, hagain⟩ := hm.both hf hw
  exact ⟨d, hd, hcd, hlast, fun w' e hw' hde => (hagain w' e hw' hde).2⟩

/-- What can be done again can be put together. -/
theorem judgement (id : Nat) : Judgement (Replays id) :=
  ⟨.pure, .bind⟩

end Replays

theorem replays_ofExcept {e : Except Fault α} (h : ∀ a, e = .ok a → always a) :
    Replays id (MonadExcept.ofExcept e) always := by
  cases e with
  | ok a => exact .pure (h a rfl)
  | error fault => exact .throw fault

/-- Looking at the circuit, for something that does not change when gates are made. -/
theorem replays_look {f : Circuit → Work β} (hf : ∀ c : Circuit, c.id = id → Replays id (f c) last)
    (hsame : ∀ c d : Circuit, c ≤ d → f d = f c) : Replays id (circuit id >>= f) last := by
  intro w c hw
  have hlook {w : Workspace} {c : Circuit} (hw : w.Shares id c) :
      (circuit id >>= f).run.run w = (f c).run.run w := by
    have hrun : (circuit id).run.run w = (.ok c, w) := runs_circuit hw.found
    rw [run_bind, hrun]
  obtain ⟨d, hd, hcd, hlast, hagain⟩ := hf c hw.id w c hw
  rw [hlook hw]
  refine ⟨d, hd, hcd, hlast, fun w' e hw' hde => ?_⟩
  rw [hlook hw', hsame c e (hcd.trans hde)]
  exact hagain w' e hw' hde

/-- Making gates in the circuit. -/
theorem replays_build (gates : Build α) [hg : Build.Grows gates] :
    Replays id (build id gates) fun _ => True := by
  intro w c hw
  have hlt : id < w.circuits.size := (Array.getElem?_eq_some_iff.mp hw.found).1
  have hgrown : c ≤ (gates.run c).2 := hg.grown c
  have hrun : (build id gates).run.run w = _ := runs_build hw.found gates
  rw [hrun]
  refine ⟨(gates.run c).2, ⟨Array.getElem?_setIfInBounds_self_of_lt hlt, hgrown.id.trans hw.id,
    hgrown.sharing.trans hw.sharing⟩, hgrown, fun _ _ => trivial, fun w' e hw' hde => ?_⟩
  have hagain := hg.again hw.sharing hde
  have hrun' : (build id gates).run.run w' = _ :=
    runs_build_of_same hw'.found (congrArg Prod.snd hagain)
  rw [hrun', hagain]

end Work

/-! ## Operations on words -/

namespace Word

variable {id : Nat} {x y : Word}

/-- Whether words are of one circuit is judged without the circuit. -/
theorem replays_requireSame (x y : Word) : Work.Replays id (requireSame x y) fun _ => True := by
  rw [requireSame]
  split
  · exact .pure trivial
  · exact .throw _

theorem replays_unary (op : Bits → Build Bits) [∀ x, Build.Grows (op x)] (hx : x.owner = id) :
    Work.Replays id (unary op x) fun z => z.owner = id := by
  rw [unary, hx]
  exact (Work.replays_build _).bind fun _ _ => .pure rfl

theorem replays_binary (op : Bits → Bits → Build Bits) [∀ x y, Build.Grows (op x y)]
    (hx : x.owner = id) (y : Word) : Work.Replays id (binary op x y) fun z => z.owner = id := by
  rw [binary, hx]
  exact (replays_requireSame x y).bind fun _ _ =>
    (Work.replays_build _).bind fun _ _ => .pure rfl

theorem replays_relation (op : Bits → Bits → Build Node) [∀ x y, Build.Grows (op x y)]
    (hx : x.owner = id) (y : Word) : Work.Replays id (relation op x y) fun _ => True := by
  rw [relation, hx]
  exact (replays_requireSame x y).bind fun _ _ => Work.replays_build _

theorem replays_joinAll (op : Connective) (hx : x.owner = id) (others : List Word) :
    Work.Replays id (joinAll op x others) fun z => z.owner = id := by
  have hforM := (Work.Replays.judgement id).forM fun y (_ : y ∈ others) => replays_requireSame x y
  rw [joinAll, hx]
  exact hforM.bind fun _ _ => (Work.replays_build _).bind fun _ _ => .pure rfl

end Word

variable {id : Nat} {x y : Word}

theorem UnaryOp.replays (op : UnaryOp) (hx : x.owner = id) :
    Work.Replays id (op.run x) fun z => z.owner = id := by
  cases op <;> exact Word.replays_unary _ hx

theorem BinaryOp.replays (op : BinaryOp) (hx : x.owner = id) (y : Word) :
    Work.Replays id (op.run x y) fun z => z.owner = id := by
  cases op <;> exact Word.replays_binary _ hx y

theorem FoldOp.replays (op : FoldOp) (hx : x.owner = id) {others : List Word}
    (howner : ∀ y ∈ others, y.owner = id) :
    Work.Replays id (op.run x others) fun z => z.owner = id := by
  cases op with
  | sum =>
    exact (Work.Replays.judgement id).combineTree (fun _ y hx _ => Word.replays_binary _ hx y) hx
      howner
  | product =>
    exact (Work.Replays.judgement id).combineTree (fun _ y hx _ => Word.replays_binary _ hx y) hx
      howner
  | join op => exact Word.replays_joinAll op hx others

theorem Relation.replays (op : Relation) (hx : x.owner = id) (hy : y.owner = id) :
    Work.Replays id (op.run x y) fun _ => True := by
  cases op with
  | gt => exact Word.replays_relation _ hy x
  | ge => exact Word.replays_relation _ hy x
  | _ => exact Word.replays_relation _ hx y

/-! ## Operations on registers -/

namespace Circuit

variable {c : Circuit} {z : Word}

theorem owner_of_wordOfBits {bits : Bits} (h : c.wordOfBits bits = .ok z) : z.owner = c.id := by
  rw [wordOfBits] at h
  split at h <;> cases h
  rfl

end Circuit

section Run

variable {r : Registers Node Word}

theorem NodeOp.replays (op : NodeOp) (howner : ∀ i, (r.words i).owner = id) :
    Work.Replays id (op.run id r) fun _ => True := by
  cases op with
  | const value => exact .pure trivial
  | var label =>
    refine Work.replays_look (fun c _ => Work.replays_ofExcept fun _ _ => trivial)
      fun c d hcd => ?_
    rw [Circuit.var, Circuit.var, hcd.numVariables]
  | relation op x y => exact op.replays (howner x) (howner y)
  | call gates => exact Work.replays_build (gates.map r.nodes).build

theorem WordOp.replays (op : WordOp) (howner : ∀ i, (r.words i).owner = id) :
    Work.Replays id (op.run id r) fun z => z.owner = id := by
  have hliteral {c d : Circuit} (hcd : c ≤ d) (n : Int) (one : Node) :
      d.literalIf n one = c.literalIf n one := by
    rw [Circuit.literalIf, Circuit.literalIf, hcd.id, hcd.bitwidth]
  cases op with
  | literal n =>
    refine Work.replays_look (fun c hc => .pure hc) fun c d hcd => ?_
    rw [Circuit.literal, Circuit.literal, hliteral hcd]
  | literalIf n one =>
    refine Work.replays_look (fun c hc => .pure hc) fun c d hcd => ?_
    rw [hliteral hcd]
  | range start stop =>
    refine Work.replays_look (fun c hc => Work.replays_ofExcept fun z hz =>
      (congrArg Word.owner (Circuit.eq_of_wordVariable hz)).trans hc) fun c d hcd => ?_
    rw [Circuit.wordVariable, Circuit.wordVariable, hcd.id, hcd.numVariables, hcd.bitwidth]
  | unary op x => exact op.replays (howner x)
  | binary op x y => exact op.replays (howner x) _
  | choose condition x y => exact Word.replays_binary _ (howner x) _
  | fold op x others =>
    refine op.replays (howner x) fun y hy => ?_
    obtain ⟨i, -, rfl⟩ := List.mem_map.mp hy
    exact howner i

theorem Instruction.replays (instruction : Instruction) (howner : ∀ i, (r.words i).owner = id) :
    Work.Replays id (instruction.run id r) fun r => ∀ i, (r.words i).owner = id := by
  cases instruction with
  | node target op => exact (op.replays howner).bind fun _ _ => .pure howner
  | word target op =>
    exact (op.replays howner).bind fun _ hz => .pure (Registers.owner_setWord howner hz target)

/-- **One step** done again. -/
theorem Step.replays (step : Step) (howner : ∀ i, (r.words i).owner = id) :
    Work.Replays id (step.run id r) fun r => ∀ i, (r.words i).owner = id := by
  cases step with
  | op instruction => exact instruction.replays howner
  | bit target x i => exact .pure howner
  | fullBit target x i =>
    refine Work.replays_look (fun c hc => ?_) fun c d hcd => ?_
    · exact (Work.replays_ofExcept fun _ _ => trivial).bind fun _ _ => .pure howner
    · rw [Circuit.fullBit, Circuit.fullBit, hcd.bitwidth]
  | bits target nodes =>
    refine Work.replays_look (fun c hc => ?_) fun c d hcd => ?_
    · refine (Work.replays_ofExcept fun z hz => ?_).bind fun z hz =>
        .pure (Registers.owner_setWord howner hz target)
      exact (Circuit.owner_of_wordOfBits hz).trans hc
    · rw [Circuit.wordOfBits, Circuit.wordOfBits, hcd.id, hcd.bitwidth]

/-- All steps of a construction. -/
theorem Construction.replays (p : Construction) (howner : ∀ i, (r.words i).owner = id) :
    Work.Replays id (p.run id r) fun r => ∀ i, (r.words i).owner = id :=
  (Work.Replays.judgement id).foldlM (fun _ step _ hr => step.replays hr) howner

end Run

/-- **A construction done again is the same result for result.** On a circuit that shares gates, a
construction is done, any other one after it, and then the first one again on the registers that it
had at the start. After every number of steps it has the registers that it had the first time, or
has found the same fault, and there is no new gate. -/
theorem Construction.replay (p between : Construction) {w w₁ w₂ : Workspace} {c : Circuit}
    (hc : w.circuits[id]? = some c) (hid : c.id = id) (hsharing : c.sharing = true)
    {r s : Registers Node Word} (hr : ∀ i, (r.words i).owner = id)
    (hs : ∀ i, (s.words i).owner = id) (hw₁ : ((p.run id r).run.run w).2 = w₁)
    (hw₂ : ((between.run id s).run.run w₁).2 = w₂) :
    ∀ q : Construction, q <+: p →
      (q.run id r).run.run w₂ = (((q.run id r).run.run w).1, w₂) := by
  rintro q ⟨rest, rfl⟩
  subst hw₁ hw₂
  have happend : Construction.run id (q ++ rest) r = q.run id r >>= Construction.run id rest :=
    List.foldlM_append
  rw [happend]
  obtain ⟨d, hd, -, -, hagain⟩ :=
    (q.replays hr).both (fun _ => Construction.replays rest) ⟨hc, hid, hsharing⟩
  obtain ⟨e, he, hde, -⟩ := between.replays hs _ d hd
  exact (hagain _ e he hde).1

/-- The product of a variable integer and 3, before and after the exclusive disjunction of two of
its bits. -/
theorem Construction.replay_product :
    ∃ (p : Construction) (w w₁ w₂ : Workspace),
      p = [.op (.word 0 (.range 1 5)), .op (.word 1 (.literal 3)),
        .op (.word 2 (.binary .mul 0 1))] ∧
      Runs (Work.create 4 {}) {} 0 w ∧ w₁.circuits[0]?.map Circuit.numGates = some 21 ∧
      w₂.circuits[0]?.map Circuit.numGates = some 22 ∧
      (p.run 0 (.start 0)).run.run w₂ = (((p.run 0 (.start 0)).run.run w).1, w₂) := by
  let start : Circuit := ⟨0, 4, 4, true, by decide, by decide, by decide, #[], ∅⟩
  let p : Construction := [.op (.word 0 (.range 1 5)), .op (.word 1 (.literal 3)),
    .op (.word 2 (.binary .mul 0 1))]
  let between : Construction := [.op (.word 0 (.range 1 5)), .bit 0 0 0, .bit 1 0 3,
    .op (.node 2 (.call (.xor 0 1)))]
  let w : Workspace := ⟨#[start]⟩
  let w₁ : Workspace := ((p.run 0 (.start 0)).run.run w).2
  let w₂ : Workspace := ((between.run 0 (.start 0)).run.run w₁).2
  refine ⟨p, w, w₁, w₂, rfl, rfl, by decide +kernel, by decide +kernel, ?_⟩
  exact p.replay between (c := start) rfl rfl rfl (fun _ => rfl) (fun _ => rfl) rfl rfl p
    List.prefix_rfl

end IntCircuit
