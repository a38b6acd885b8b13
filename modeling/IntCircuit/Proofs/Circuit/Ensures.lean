import IntCircuit.Proofs.Circuit.Valid
import IntCircuit.Junction

/-!
# What a computation ensures

Computations that make gates are judged by what holds after them, unless labels run out: the
circuit has been reached by calls on nodes of its own and is sound, and the result is as wanted.
That a circuit only grows needs no condition at all, and is what lets labels that last to the end be
labels that lasted throughout.

## Main definitions

* `GateCall`: the calls by which a circuit makes gates, with what they compute
* `Circuit.Reaches`, `Circuit.Reachable`: the states that calls on its own nodes lead to
* `Build.Grows`: computations that do nothing to a circuit but make gates
* `Build.Ensures`: what holds after a computation unless labels run out
* `Circuit.Reads`, `Circuit.ReadsAll`: nodes of a circuit with given values

## Main results

* `Build.Grows.grown`: after them the circuit is a later state of itself
* `Build.Ensures.bind`: one computation after another
* `Build.Ensures.foldlM_range`, `Build.Ensures.mapM`: rounds, and one computation for each item of a
  list
-/

namespace IntCircuit

/-- The calls by which a circuit makes gates, with what their operands are given by. -/
inductive GateCall (α : Type) where
  | and (a b : α)
  | or (a b : α)
  | join (op : Connective) (inputs : List α)
  | not (a : α)
  | ite (condition consequent alternative : α)
  | xor (a b : α)
  | iff (a b : α)
  | implies (a b : α)
  | sum (a b carryIn : α)
  | carry (a b carryIn : α)
  | accumulate (op : Connective) (inputs : List α)

namespace GateCall

variable {α β : Type}

/-- What a call does. A junction is accumulated after its inputs have been added one by one. -/
def build : GateCall Node → Build Node
  | and a b => Build.and a b
  | or a b => Build.or a b
  | join op inputs => Build.nary op inputs
  | not a => Build.not a
  | ite condition consequent alternative => Build.ite condition consequent alternative
  | xor a b => Build.xor a b
  | iff a b => Build.iff a b
  | implies a b => Build.implies a b
  | sum a b carryIn => Build.sum a b carryIn
  | carry a b carryIn => Build.carry a b carryIn
  | accumulate op inputs => Build.accumulate (inputs.foldl Junction.add (Junction.empty op))

/-- What a call is given. -/
def operands : GateCall α → List α
  | and a b => [a, b]
  | or a b => [a, b]
  | join _ inputs => inputs
  | not a => [a]
  | ite condition consequent alternative => [condition, consequent, alternative]
  | xor a b => [a, b]
  | iff a b => [a, b]
  | implies a b => [a, b]
  | sum a b carryIn => [a, b, carryIn]
  | carry a b carryIn => [a, b, carryIn]
  | accumulate _ inputs => inputs

/-- The truth function of a call, for operands with these values. -/
def truth (value : α → Bool) : GateCall α → Bool
  | and a b => value a && value b
  | or a b => value a || value b
  | join op inputs => op.join (inputs.map value)
  | not a => !value a
  | ite condition consequent alternative =>
    if value condition then value consequent else value alternative
  | xor a b => value a ^^ value b
  | iff a b => value a == value b
  | implies a b => !value a || value b
  | sum a b carryIn => value a ^^ value b ^^ value carryIn
  | carry a b carryIn => (value a && value b) || (value carryIn && (value a ^^ value b))
  | accumulate op inputs => op.join (inputs.map value)

/-- The same call on other operands. -/
def map (f : α → β) : GateCall α → GateCall β
  | and a b => and (f a) (f b)
  | or a b => or (f a) (f b)
  | join op inputs => join op (inputs.map f)
  | not a => not (f a)
  | ite condition consequent alternative => ite (f condition) (f consequent) (f alternative)
  | xor a b => xor (f a) (f b)
  | iff a b => iff (f a) (f b)
  | implies a b => implies (f a) (f b)
  | sum a b carryIn => sum (f a) (f b) (f carryIn)
  | carry a b carryIn => carry (f a) (f b) (f carryIn)
  | accumulate op inputs => accumulate op (inputs.map f)

theorem operands_map (f : α → β) (call : GateCall α) :
    (call.map f).operands = call.operands.map f := by
  cases call <;> rfl

theorem truth_map (f : α → β) (value : β → Bool) (call : GateCall α) :
    (call.map f).truth value = call.truth fun a => value (f a) := by
  cases call <;> simp [map, truth, Function.comp_def]

end GateCall

namespace Circuit

/-- The states that a circuit reaches by calls on nodes that it has handed out. -/
inductive Reaches (c : Circuit) : Circuit → Prop
  | refl : c.Reaches c
  | call {d : Circuit} (call : GateCall Node) : c.Reaches d → (∀ n ∈ call.operands, d.Owns n) →
      c.Reaches (call.build.run d).2

theorem Reaches.trans {b c d : Circuit} (hbc : b.Reaches c) (hcd : c.Reaches d) : b.Reaches d := by
  induction hcd with
  | refl => exact hbc
  | call call _ hown ih => exact ih.call call hown

theorem Reaches.single {c : Circuit} (call : GateCall Node) (hown : ∀ n ∈ call.operands, c.Owns n) :
    c.Reaches (call.build.run c).2 :=
  Reaches.refl.call call hown

/-- The states that a new circuit reaches. -/
def Reachable (c : Circuit) : Prop :=
  ∃ (id numVariables : Nat) (settings : Settings) (start : Circuit),
    create id numVariables settings = .ok start ∧ start.Reaches c

theorem Reachable.of_create {c : Circuit} {id numVariables : Nat} {settings : Settings}
    (h : create id numVariables settings = .ok c) : c.Reachable :=
  ⟨id, numVariables, settings, c, h, .refl⟩

theorem Reachable.reaches {c d : Circuit} (hc : c.Reachable) (h : c.Reaches d) : d.Reachable := by
  obtain ⟨id, numVariables, settings, start, hstart, hreach⟩ := hc
  exact ⟨id, numVariables, settings, start, hstart, hreach.trans h⟩

/-- A node of the circuit with this value under every assignment. -/
structure Reads (d : Circuit) (n : Node) (value : (Nat → Bool) → Bool) : Prop where
  owns : d.Owns n
  eval : ∀ σ : Nat → Bool, n.eval σ = value σ

/-- Nodes of the circuit with these values under every assignment. -/
structure ReadsAll (d : Circuit) (nodes : List Node) (values : (Nat → Bool) → List Bool) :
    Prop where
  owns : ∀ n ∈ nodes, d.Owns n
  eval : ∀ σ : Nat → Bool, nodes.map (Node.eval σ) = values σ

theorem Reads.mono {c d : Circuit} (h : c ≤ d) {n : Node} {value : (Nat → Bool) → Bool}
    (hn : c.Reads n value) : d.Reads n value :=
  ⟨hn.owns.mono h, hn.eval⟩

theorem ReadsAll.nil (d : Circuit) : d.ReadsAll [] fun _ => [] :=
  ⟨fun _ h => (List.not_mem_nil h).elim, fun _ => rfl⟩

theorem ReadsAll.cons {d : Circuit} {n : Node} {value : (Nat → Bool) → Bool} {nodes : List Node}
    {values : (Nat → Bool) → List Bool} (hn : d.Reads n value) (hnodes : d.ReadsAll nodes values) :
    d.ReadsAll (n :: nodes) fun σ => value σ :: values σ := by
  refine ⟨fun m hm => ?_, fun σ => by rw [List.map_cons, hn.eval, hnodes.eval]⟩
  rcases List.mem_cons.mp hm with rfl | hm
  · exact hn.owns
  · exact hnodes.owns m hm

theorem ReadsAll.mono {c d : Circuit} (h : c ≤ d) {nodes : List Node}
    {values : (Nat → Bool) → List Bool} (hnodes : c.ReadsAll nodes values) :
    d.ReadsAll nodes values :=
  ⟨fun n hn => (hnodes.owns n hn).mono h, hnodes.eval⟩

theorem ReadsAll.concat {d : Circuit} {n : Node} {value : (Nat → Bool) → Bool} {nodes : List Node}
    {values : (Nat → Bool) → List Bool} (hnodes : d.ReadsAll nodes values) (hn : d.Reads n value) :
    d.ReadsAll (nodes ++ [n]) fun σ => values σ ++ [value σ] := by
  refine ⟨fun m hm => ?_, fun σ => ?_⟩
  · rcases List.mem_append.mp hm with hm | hm
    · exact hnodes.owns m hm
    · exact List.mem_singleton.mp hm ▸ hn.owns
  · rw [List.map_append, List.map_singleton, hnodes.eval, hn.eval]

end Circuit

namespace Build

variable {α β : Type}

/-- Computations that make gates in a circuit, one after another and each under its own tag unless
one is shared, and that look at nothing of the circuit but its bitwidth. -/
class inductive Grows : {α : Type} → Build α → Prop
  | pure {α : Type} (a : α) : Grows (pure a)
  | intern {s : Signature} {make : Tag → Node} (htag : ∀ t : Tag, (make t).tag? = some t) :
    Grows (intern s make)
  | look {α : Type} {f : Circuit → Build α} (hf : ∀ c, Grows (f c))
    (hsame : ∀ c d : Circuit, c.bitwidth = d.bitwidth → f c = f d) : Grows (get >>= f)
  | bind {α β : Type} {m : Build α} {f : α → Build β} (hm : Grows m) (hf : ∀ a, Grows (f a)) :
    Grows (m >>= f)

/-- After such a computation every circuit is a later state of itself. -/
theorem Grows.grown {m : Build α} [hm : Grows m] (c : Circuit) : c ≤ (m.run c).2 := by
  induction hm generalizing c with
  | pure a => exact le_refl c
  | intern _ => exact Circuit.grown_intern _ _
  | look _ _ ih => exact ih c c
  | bind _ _ ihm ihf => exact (ihm c).trans (ihf _ _)

instance (a : α) : Grows (pure a) := .pure a

instance (m : Build α) (f : α → Build β) [hm : Grows m] [hf : ∀ a, Grows (f a)] :
    Grows (m >>= f) := .bind hm hf

instance (s : Signature) (op : Connective) (inputs : List Node) :
    Grows (intern s fun tag => .nary tag op inputs) := .intern fun _ => rfl

instance (s : Signature) (input : Node) : Grows (intern s fun tag => .not tag input) :=
  .intern fun _ => rfl

instance (s : Signature) (condition consequent alternative : Node) :
    Grows (intern s fun tag => .ite tag condition consequent alternative) := .intern fun _ => rfl

instance (f : α → Build β) [hf : ∀ a, Grows (f a)] (items : List α) : Grows (items.mapM f) := by
  induction items with
  | nil => rw [List.mapM_nil]; infer_instance
  | cons a rest ih => rw [List.mapM_cons]; infer_instance

instance (f : β → α → Build β) [hf : ∀ b a, Grows (f b a)] (items : List α) (b : β) :
    Grows (items.foldlM f b) := by
  induction items generalizing b with
  | nil => rw [List.foldlM_nil]; infer_instance
  | cons a rest ih => rw [List.foldlM_cons]; infer_instance

/-- Unless labels run out, the computation takes the circuit `c` by calls on nodes of its own to a
sound state, and its result and that state are as `post` says. -/
def Ensures (c : Circuit) (m : Build α) (post : α → Circuit → Prop) : Prop :=
  (m.run c).2.maxLabel + 1 < labelModulus →
    c.Reaches (m.run c).2 ∧ (m.run c).2.Sound ∧ post (m.run c).1 (m.run c).2

namespace Ensures

variable {c : Circuit} {m : Build α} {f : α → Build β} {post : α → Circuit → Prop}
  {mid : α → Circuit → Prop} {last : β → Circuit → Prop}

protected theorem pure (hc : c.Sound) {a : α} (h : post a c) : Ensures c (pure a) post :=
  fun _ => ⟨.refl, hc, h⟩

protected theorem mono (hm : Ensures c m mid)
    (h : ∀ a d, c ≤ d → d.Sound → mid a d → post a d) [hg : Grows m] : Ensures c m post :=
  fun hl => ⟨(hm hl).1, (hm hl).2.1, h _ _ (hg.grown c) (hm hl).2.1 (hm hl).2.2⟩

/-- A computation that looks at the circuit first. -/
protected theorem get_bind {f : Circuit → Build β} (h : Ensures c (f c) last) :
    Ensures c (get >>= f) last :=
  h

/-- One computation after another. What the first one ensures may be used of every later state. -/
protected theorem bind (hm : Ensures c m mid) [hg : Grows m] [hf : ∀ a, Grows (f a)]
    (h : ∀ a d, c ≤ d → d.Sound → mid a d → Ensures d (f a) last) : Ensures c (m >>= f) last := by
  intro hl
  -- labels that last to the end have lasted in between
  have hmid : (m.run c).2.maxLabel + 1 < labelModulus :=
    Circuit.maxLabel_lt_mono ((hf _).grown _) hl
  obtain ⟨hreach, hsound, hpost⟩ := hm hmid
  obtain ⟨hreach', hsound', hpost'⟩ := h _ _ (hg.grown c) hsound hpost hl
  exact ⟨hreach.trans hreach', hsound', hpost'⟩

/-- Rounds counted from 0, with what holds after so many of them. -/
theorem foldlM_range {step : β → Nat → Build β} [∀ b i, Grows (step b i)] {rounds : Nat}
    (inv : Nat → β → Circuit → Prop) (hc : c.Sound) {b : β} (hstart : inv 0 b c)
    (h : ∀ i b d, i < rounds → c ≤ d → d.Sound → inv i b d → Ensures d (step b i) (inv (i + 1))) :
    Ensures c ((List.range rounds).foldlM step b) (inv rounds) := by
  -- the last round comes after all others
  induction rounds with
  | zero =>
    rw [List.range_zero, List.foldlM_nil]
    exact .pure hc hstart
  | succ rounds ih =>
    rw [List.range_succ, List.foldlM_append]
    refine (ih fun i b d hi => h i b d (Nat.lt_succ_of_lt hi)).bind fun b d hcd hd hb => ?_
    rw [List.foldlM_cons]
    refine (h rounds b d (Nat.lt_succ_self rounds) hcd hd hb).bind fun b e _ he hb => ?_
    rw [List.foldlM_nil]
    exact .pure he hb

/-- A computation for each item of a list, which makes nodes with the values wanted. -/
theorem mapM (value : (Nat → Bool) → α → Bool) {items : List α} {make : α → Build Node}
    [∀ a, Grows (make a)] (hc : c.Sound)
    (h : ∀ a ∈ items, ∀ d, c ≤ d → d.Sound →
      Ensures d (make a) fun n e => e.Reads n fun σ => value σ a) :
    Ensures c (items.mapM make) fun nodes d => d.ReadsAll nodes fun σ => items.map (value σ) := by
  induction items generalizing c with
  | nil =>
    rw [List.mapM_nil]
    exact .pure hc (.nil c)
  | cons a rest ih =>
    rw [List.mapM_cons]
    refine (h a List.mem_cons_self c (le_refl c) hc).bind fun n d hcd hd hn => ?_
    refine (ih hd fun b hb e hde => h b (List.mem_cons_of_mem a hb) e (hcd.trans hde)).bind
      fun nodes e hde he hnodes => ?_
    exact .pure he (.cons (hn.mono hde) hnodes)

end Ensures

end Build

end IntCircuit
