import IntCircuit.Bits.Denote
import IntCircuit.Model
import IntCircuit.Proofs.Circuit.Below

/-!
# What a model answers

A model keeps the values of gates under their labels. As a label stands for one gate, what is kept
is the value of that gate, and answers do not depend on the questions before them.

## Main definitions

* `Model.Knows`: what a model keeps are values of gates of the circuit
* `Model.Answers`: a question with this answer under every assignment

## Main results

* `Model.answers_valueOf`: a model answers with the value of the node
* `Model.answers_valueOfWord`: a model answers with the integer that a word stands for
-/

namespace IntCircuit.Model

variable {c d : Circuit} {m : Model} {α β : Type}

/-- What the model keeps are values of gates of the circuit, under their labels. -/
def Knows (m : Model) (c : Circuit) : Prop :=
  ∀ (l : Int) (value : Bool), m.memo[l]? = some value →
    ∃ g ∈ c.gates, g.label = l ∧ g.eval m.variableValue = value

theorem Knows.mono (h : c ≤ d) (hm : m.Knows c) : m.Knows d := fun l value hl =>
  have ⟨g, hg, hlabel, hvalue⟩ := hm l value hl
  ⟨g, Circuit.mem_gates_mono h hg, hlabel, hvalue⟩

/-- A model in which no gate has been looked at knows nothing false. -/
theorem knows_ofAssignment (assignment : Array Bool) (c : Circuit) :
    (ofAssignment assignment).Knows c := fun l value h => by simp [ofAssignment] at h

/-- A value is looked up under its label, and found and kept if there is none. -/
theorem run_cached (m : Model) (label : Int) (find : StateM Model Bool) :
    (cached label find).run m =
      match m.memo[label]? with
      | some value => (value, m)
      | none => ((find.run m).1, (find.run m).2.remember label (find.run m).1) := by
  rw [cached]
  cases h : m.memo[label]? with
  | some value => simp [h]; rfl
  | none => simp [h]; rfl

/-- The question has this answer under every assignment, and after it the model keeps values of
gates as before. -/
def Answers (c : Circuit) (ask : StateM Model α) (value : (Nat → Bool) → α) : Prop :=
  ∀ m : Model, m.Knows c → (ask.run m).1 = value m.variableValue ∧
    (ask.run m).2.assignment = m.assignment ∧ (ask.run m).2.Knows c

namespace Answers

variable {ask : StateM Model α} {f : α → StateM Model β} {value : (Nat → Bool) → α}

protected theorem pure (a : α) : Answers c (pure a) fun _ => a :=
  fun _ hm => ⟨rfl, rfl, hm⟩

protected theorem bind (r : α → (Nat → Bool) → β) (h : Answers c ask value)
    (hf : ∀ a, Answers c (f a) (r a)) : Answers c (ask >>= f) fun σ => r (value σ) σ := by
  intro m hm
  obtain ⟨hvalue, hassignment, hknows⟩ := h m hm
  obtain ⟨hvalue', hassignment', hknows'⟩ := hf (ask.run m).1 (ask.run m).2 hknows
  -- the second question is put to a model with the same variables
  refine ⟨hvalue'.trans ?_, hassignment'.trans hassignment, hknows'⟩
  rw [hvalue]
  exact congrArg (r _) (funext fun v => by rw [variableValue, variableValue, hassignment])

protected theorem congr {other : (Nat → Bool) → α} (h : Answers c ask value)
    (heq : ∀ σ, value σ = other σ) : Answers c ask other :=
  funext heq ▸ h

/-- A question for each item of a list. -/
theorem mapM {f : α → StateM Model β} {value : (Nat → Bool) → α → β} {items : List α}
    (h : ∀ a ∈ items, Answers c (f a) fun σ => value σ a) :
    Answers c (items.mapM f) fun σ => items.map (value σ) := by
  induction items with
  | nil =>
    rw [List.mapM_nil]
    exact .pure []
  | cons a rest ih =>
    rw [List.mapM_cons]
    exact (h a List.mem_cons_self).bind _ fun b =>
      (ih fun k hk => h k (List.mem_cons_of_mem a hk)).bind _ fun bs => .pure (b :: bs)

/-- The value of a gate may be kept, for its label stands for nothing else. -/
theorem cached (hc : c.Valid) {g : Node} (hg : g ∈ c.gates) {find : StateM Model Bool}
    (h : Answers c find fun σ => g.eval σ) :
    Answers c (cached g.label find) fun σ => g.eval σ := by
  intro m hm
  rw [run_cached]
  cases hmemo : m.memo[g.label]? with
  | some kept =>
    -- what is kept under the label is the value of this very gate
    obtain ⟨k, hk, hlabel, hvalue⟩ := hm g.label kept hmemo
    obtain rfl := hc.gate_eq_of_label hk hg hlabel
    exact ⟨hvalue.symm, rfl, hm⟩
  | none =>
    obtain ⟨hvalue, hassignment, hknows⟩ := h m hm
    refine ⟨hvalue, hassignment, fun l value hl => ?_⟩
    rw [remember, Std.TreeMap.getElem?_insert] at hl
    split at hl
    · next hlabel =>
      refine ⟨g, hg, Std.LawfulEqOrd.eq_of_compare hlabel, ?_⟩
      rw [← Option.some.inj hl, hvalue]
      exact congrArg g.eval (funext fun v => congrArg (·.getD (v - 1) false) hassignment)
    · exact hknows l value hl

end Answers

/-- A connective looks at its inputs up to the one that settles it. -/
theorem answers_join (op : Connective) {inputs : List Node}
    (h : ∀ n ∈ inputs, Answers c (valueOf n) fun σ => n.eval σ) :
    Answers c (join op inputs) fun σ => op.join (inputs.map (Node.eval σ)) := by
  induction inputs with
  | nil =>
    rw [join]
    exact (Answers.pure _).congr fun σ => op.join_nil.symm
  | cons n rest ih =>
    rw [join]
    refine ((h n List.mem_cons_self).bind (r := fun value σ => if value = op.absorbing then
      op.absorbing else op.join (rest.map (Node.eval σ))) ?_).congr ?_
    · intro value
      split
      · exact .pure _
      · exact ih fun m hm => h m (List.mem_cons_of_mem n hm)
    · intro σ
      rw [List.map_cons, Connective.join_cons]

/-- **A model answers with the value of the node**, whatever it was asked before. -/
theorem answers_valueOf (hc : c.Valid) {n : Node} (hn : c.Owns n) :
    Answers c (valueOf n) fun σ => n.eval σ := by
  -- the inputs of a gate are asked about first, if at all
  induction n using Node.inputs_induction with
  | step n ih =>
    have hin : ∀ i ∈ n.inputs, Answers c (valueOf i) fun σ => i.eval σ := fun i hi =>
      ih i hi (hc.owns_inputs hn hi).1
    cases n with
    | const value =>
      rw [valueOf]
      exact (Answers.pure value).congr fun σ => (Node.eval_const σ value).symm
    | var v =>
      rw [valueOf]
      exact fun m hm => ⟨(Node.eval_var m.variableValue v).symm, rfl, hm⟩
    | nary tag op inputs =>
      rw [valueOf]
      exact .cached hc hn ((answers_join op hin).congr fun σ => (Node.eval_nary σ tag op _).symm)
    | not tag input =>
      rw [valueOf]
      refine .cached hc hn (((hin input (List.mem_singleton_self _)).bind
        (r := fun value _ => !value) fun value => .pure _).congr fun σ => ?_)
      rw [Node.eval_not]
    | ite tag condition consequent alternative =>
      rw [valueOf]
      have hchosen (value : Bool) :
          Answers c (if value then valueOf consequent else valueOf alternative) fun σ =>
            if value then consequent.eval σ else alternative.eval σ := by
        cases value
        · exact hin alternative (by simp [Node.inputs])
        · exact hin consequent (by simp [Node.inputs])
      refine .cached hc hn (((hin condition (by simp [Node.inputs])).bind
        (r := fun value σ => if value then consequent.eval σ else alternative.eval σ)
        hchosen).congr fun σ => ?_)
      rw [Node.eval_ite]

/-- **A model answers with the integer that a word stands for.** -/
theorem answers_valueOfWord (hc : c.Valid) {x : Word} (hx : ∀ n ∈ x.bits, c.Owns n) :
    Answers c (valueOfWord x) fun σ => x.denote σ :=
  (Answers.mapM fun n hn => answers_valueOf hc (hx n hn)).bind _ fun _ => .pure _

end IntCircuit.Model
