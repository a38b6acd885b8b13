import IntCircuit.Proofs.Circuit.History
import IntCircuit.Proofs.Model
import IntCircuit.Proofs.Word.Operations

/-!
# Inquiries

An inquiry asks one model about nodes and words of one circuit, again and again, and makes gates in
between. Every answer is put together from values that the model has kept and values that it finds,
so which ones it keeps depends on the questions so far and on the inputs that settled them; what it
answers does not.

## Main definitions

* `Query`, `Reply`: what a model can be asked, and what it answers
* `Query.eval`: the answer by plain evaluation, without any memory
* `Inquiry`: the questions to a model with the answers, the circuit and the model

## Main results

* `Query.answers_ask`: what one question preserves
* `Inquiry.knows`: what the questions of an inquiry preserve
* `Inquiry.replies`: every answer of an inquiry is that of plain evaluation
-/

namespace IntCircuit

/-- A question to a model. -/
inductive Query where
  | node (n : Node)
  | word (x : Word)

/-- What a model answers. -/
inductive Reply where
  | truth (value : Bool)
  | integer (n : Int)
  deriving DecidableEq

namespace Query

/-- Puts the question to a model. -/
def ask : Query → StateM Model Reply
  | node n => do return .truth (← Model.valueOf n)
  | word x => do return .integer (← Model.valueOfWord x)

/-- The answer when variable `v` has the value `σ v`, by recursion on the nodes alone. -/
def eval (σ : Nat → Bool) : Query → Reply
  | node n => .truth (n.eval σ)
  | word x => .integer (x.denote σ)

/-- The question is about something of the circuit. -/
def Concerns (c : Circuit) : Query → Prop
  | node n => c.Owns n
  | word x => c.OwnsWord x

/-- **One question** is answered as plain evaluation does, and what the model keeps afterwards are
values of gates again. -/
theorem answers_ask {c : Circuit} (hc : c.Valid) {q : Query} (hq : q.Concerns c) :
    Model.Answers c q.ask fun σ => q.eval σ := by
  cases q with
  | node n => exact (Model.answers_valueOf hc hq).bind _ fun value => .pure (Reply.truth value)
  | word x => exact (Model.answers_valueOfWord hc hq.owns).bind _ fun n => .pure (Reply.integer n)

end Query

/-- The questions so far with the answers, the circuit and the model. An inquiry starts with a model
of some values of variables that has not been asked anything; it goes on with gates made by calls on
nodes of the circuit, or by asking about something of the circuit. -/
inductive Inquiry (values : Array Bool) : List (Query × Reply) → Circuit → Model → Prop
  | start {c : Circuit} : c.Reachable → Inquiry values [] c (.ofAssignment values)
  | gates {log : List (Query × Reply)} {c d : Circuit} {m : Model} :
      Inquiry values log c m → c.Reaches d → Inquiry values log d m
  | ask {log : List (Query × Reply)} {c : Circuit} {m : Model} (q : Query) :
      Inquiry values log c m → q.Concerns c →
      Inquiry values (log ++ [(q, (q.ask.run m).1)]) c (q.ask.run m).2

namespace Inquiry

variable {values : Array Bool} {log : List (Query × Reply)} {c : Circuit} {m : Model}

/-- The circuit of an inquiry has come from a new one. -/
theorem reachable (h : Inquiry values log c m) : c.Reachable := by
  induction h with
  | start hc => exact hc
  | gates _ hreach ih => exact ih.reaches hreach
  | ask _ _ _ ih => exact ih

/-- **Questions leave the values of variables alone, and what is kept are values of gates**, in
whatever order they come and whatever gates are made in between. -/
theorem knows (h : Inquiry values log c m) (hl : c.maxLabel ≤ labelLimit) :
    m.assignment = values ∧ m.Knows c := by
  induction h with
  | @start c _ => exact ⟨rfl, Model.knows_ofAssignment values c⟩
  | gates _ hreach ih =>
    have hgrown := hreach.grown
    obtain ⟨hvalues, hknows⟩ := ih (Nat.le_trans (Circuit.maxLabel_mono hgrown) hl)
    exact ⟨hvalues, hknows.mono hgrown⟩
  | ask q hinquiry hq ih =>
    obtain ⟨hvalues, hknows⟩ := ih hl
    obtain ⟨-, hassignment, hknows'⟩ :=
      Query.answers_ask (hinquiry.reachable.valid hl) hq _ hknows
    exact ⟨hassignment.trans hvalues, hknows'⟩

/-- What was asked is still about the circuit. -/
theorem concerns (h : Inquiry values log c m) {q : Query} {reply : Reply}
    (hmem : (q, reply) ∈ log) : q.Concerns c := by
  induction h with
  | start _ => cases hmem
  | gates _ hreach ih =>
    have hold := ih hmem
    cases q with
    | node n => exact Circuit.Owns.mono hreach.grown hold
    | word x => exact Circuit.Denotes.mono hreach.grown hold
  | ask _ _ hq ih =>
    rcases List.mem_append.mp hmem with hmem | hmem
    · exact ih hmem
    · cases List.mem_singleton.mp hmem
      exact hq

theorem reply_eq_eval (h : Inquiry values log c m) (hl : c.maxLabel ≤ labelLimit) {q : Query}
    {reply : Reply} (hmem : (q, reply) ∈ log) :
    reply = q.eval fun v => values.getD (v - 1) false := by
  induction h with
  | start _ => cases hmem
  | gates _ hreach ih =>
    exact ih (Nat.le_trans (Circuit.maxLabel_mono hreach.grown) hl) hmem
  | ask p hinquiry hp ih =>
    rcases List.mem_append.mp hmem with hmem | hmem
    · exact ih hl hmem
    · -- the last answer comes from a model that knows nothing false
      cases List.mem_singleton.mp hmem
      obtain ⟨hvalues, hknows⟩ := hinquiry.knows hl
      rw [(Query.answers_ask (hinquiry.reachable.valid hl) hp _ hknows).1, ← hvalues]
      rfl

/-- **Every answer of an inquiry is that of plain evaluation.** As long as labels last, a node is
answered with its value and a word with the integer of its bits, where variables have the values of
the model and are false past their end. So it is the answer of a model that has not been asked
anything before. -/
theorem replies (h : Inquiry values log c m) (hl : c.maxLabel ≤ labelLimit) :
    ∀ q reply, (q, reply) ∈ log →
      reply = q.eval (fun v => values.getD (v - 1) false) ∧
        reply = (q.ask.run (.ofAssignment values)).1 := by
  intro q reply hmem
  have hplain := h.reply_eq_eval hl hmem
  -- a model that has not been asked anything knows nothing false, either
  have hfresh := Query.answers_ask (h.reachable.valid hl) (h.concerns hmem) _
    (Model.knows_ofAssignment values c)
  exact ⟨hplain, hplain.trans hfresh.1.symm⟩

/-- A model with a value for the first of two variables is asked about their exclusive disjunction,
and then about a word with that node, a later gate and a constant as its bits. -/
theorem replies_of_node_and_word :
    ∃ log c m q₁ q₂, Inquiry #[true] log c m ∧ c.maxLabel ≤ labelLimit ∧ c.numGates = 3 ∧
      log = [(q₁, .truth true), (q₂, .integer 3)] := by
  let start : Circuit := ⟨0, 2, 4, true, by decide, by decide, by decide, #[], ∅⟩
  let differ : GateCall Node := .xor (.var 1) (.var 2)
  let a := differ.build.run start
  let either : GateCall Node := .or (.var 1) a.1
  let b := either.build.run a.2
  let x : Word := ⟨0, [a.1, b.1, .const false]⟩
  have hl : b.2.maxLabel ≤ labelLimit := by decide
  have hgates : b.2.numGates = 3 := by decide
  have hfirst : (Query.node a.1).eval (fun v => #[true].getD (v - 1) false) = .truth true := by
    decide +kernel
  have hlast : (Query.word x).eval (fun v => #[true].getD (v - 1) false) = .integer 3 := by
    decide +kernel
  have hreachable : start.Reachable := ⟨0, 2, {}, start, rfl, .refl⟩
  have hvars : ∀ n ∈ differ.operands, start.Owns n := by
    simp [differ, start, GateCall.operands, Circuit.Owns]
  have hdiffer : start.Reaches a.2 ∧ a.2.Valid ∧ a.2.Reads a.1 _ :=
    differ.ensures (hreachable.valid (by decide)) hvars (by decide)
  have hnodes : ∀ n ∈ either.operands, a.2.Owns n := by
    simp only [either, GateCall.operands, List.forall_mem_cons]
    exact ⟨⟨by decide, by decide⟩, hdiffer.2.2.owns, by simp⟩
  have heither : a.2.Reaches b.2 ∧ b.2.Valid ∧ b.2.Reads b.1 _ :=
    either.ensures hdiffer.2.1 hnodes hl
  have hwidth : 3 ≤ b.2.bitwidth := by decide
  -- from here on the later circuit is known by what has been ensured of it
  clear_value b
  have hx : b.2.OwnsWord x := by
    refine ⟨?_, by simp [x], by simpa [x] using hwidth, fun _ => rfl⟩
    simp only [x, List.forall_mem_cons]
    exact ⟨hdiffer.2.2.owns.mono heither.1.grown, heither.2.2.owns, trivial, by simp⟩
  have hstart : Inquiry #[true] [] start _ := .start hreachable
  have hinquiry := (((hstart.gates hdiffer.1).ask
    (.node a.1) hdiffer.2.2.owns).gates heither.1).ask (.word x) hx
  have hanswers := hinquiry.replies hl
  refine ⟨_, _, _, .node a.1, .word x, hinquiry, hl, hgates, ?_⟩
  rw [(hanswers _ _ (List.mem_append_left _ (List.mem_singleton_self _))).1,
    (hanswers _ _ (List.mem_append_right _ (List.mem_singleton_self _))).1, hfirst, hlast]
  rfl

end Inquiry

end IntCircuit
