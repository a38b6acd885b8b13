import IntCircuit.Proofs.Circuit.History
import IntCircuit.Proofs.Program.Run

/-!
# What operations on words come to

A circuit stands in a workspace at its number and has come there from a new one by any calls. An
operation on its words always ends, with a result and a later state of the circuit. Unless the count
of labels has come round, the result is one of that later state, and a word stands for the integer
that the operation says, wrapped to the bitwidth.

## Main definitions

* `Workspace.Holds`: a circuit at its number
* `Circuit.HasWord`: a word of the circuit, with any bits
* `Work.Leads`: the result of an operation, and the workspace and the circuit after it
* `Work.Makes`: an operation whose result stands for such integers

## Main results

* `Work.Ensures.leads`: every operation ends that is ensured something of
* `Work.Leads.holds`: what is left can be worked with as what there was before
* `UnaryOp.makes`, `BinaryOp.makes`: operations on one word and on two
-/

namespace IntCircuit

/-- The circuit stands in the workspace at its number, and calls have led to it from a new one. -/
structure Workspace.Holds (w : Workspace) (c : Circuit) : Prop where
  circuit : w.circuits[c.id]? = some c
  reachable : c.Reachable

/-- A word of the circuit: its bits are nodes of the circuit, at least one and at most as many as
the bitwidth. -/
structure Circuit.HasWord (c : Circuit) (x : Word) : Prop where
  owner : x.owner = c.id
  owns : c.OwnsWord x

namespace Circuit.HasWord

variable {c d : Circuit} {x : Word}

theorem mono (h : c ≤ d) (hx : c.HasWord x) : d.HasWord x :=
  ⟨hx.owner.trans h.id.symm, Denotes.mono h hx.owns⟩

/-- The integer fits the width of the word. -/
theorem inRange (hx : c.HasWord x) (σ : Nat → Bool) : InRange x.width (x.denote σ) :=
  Denotes.inRange_length hx.owns σ

/-- The variables of a range make a word. -/
theorem range {start stop : Nat} (hstart : 0 < start) (hstop : start < stop)
    (hle : stop - 1 ≤ c.numVariables) (hwidth : stop - start ≤ c.bitwidth) :
    c.HasWord ⟨c.id, (List.range' start (stop - start)).map .var⟩ :=
  ⟨rfl, Denotes.ownsWord (denotes_range hstart hstop hle hwidth)⟩

end Circuit.HasWord

namespace Work

/-- **A new circuit** stands at the number that was told, and ranges of its variables are words. -/
theorem holds_of_runs_create {numVariables id : Nat} {settings : Settings} {w w₀ : Workspace}
    (h : Runs (create numVariables settings) w id w₀) :
    ∃ c, w₀.Holds c ∧ c.id = id ∧ c.bitwidth = settings.bitwidth ∧
      ∀ start stop, 0 < start ∧ start < stop ∧ stop - 1 ≤ numVariables ∧
          stop - start ≤ settings.bitwidth →
        c.HasWord ⟨id, (List.range' start (stop - start)).map .var⟩ := by
  obtain ⟨c, hc, hw₀⟩ := circuit_of_runs_create h
  obtain ⟨rfl, rfl, hbits, -⟩ := Circuit.create_eq_ok hc
  refine ⟨c, ⟨hw₀, .of_create hc⟩, rfl, hbits, ?_⟩
  rintro start stop ⟨hstart, hstop, hle, hwidth⟩
  exact .range hstart hstop hle (hbits ▸ hwidth)

/-- The operation ends with the result `a` in the workspace `w₁`, where `d` is a later state of the
circuit `c`. Unless the count of labels has come round, calls on nodes of the circuit have led
there. -/
structure Leads {α : Type} (m : Work α) (w : Workspace) (c : Circuit) (a : α) (w₁ : Workspace)
    (d : Circuit) : Prop where
  runs : Runs m w a w₁
  circuit : w₁.circuits[d.id]? = some d
  grown : c ≤ d
  reaches : d.maxLabel + 1 < labelModulus → c.Reaches d

/-- The operation makes a word of the circuit, unless the count of labels comes round, and under
every assignment the integer of the word is as `spec` says. -/
def Makes (m : Work Word) (w : Workspace) (c : Circuit) (spec : (Nat → Bool) → Int → Prop) : Prop :=
  ∃ z w₁ d, m.Leads w c z w₁ d ∧
    (d.maxLabel + 1 < labelModulus → d.HasWord z ∧ ∀ σ, spec σ (z.denote σ))

variable {α : Type} {w w₁ : Workspace} {c d : Circuit}

/-- **Operations end**, and what they are ensured of their results holds. -/
theorem Ensures.leads {m : Work α} {always : α → Prop} {post : α → Circuit → Prop}
    (h : Ensures c.id c m always c.Sound post) (hw : w.Holds c) :
    ∃ a w₁ d, m.Leads w c a w₁ d ∧ always a ∧ (d.maxLabel + 1 < labelModulus → post a d) := by
  obtain ⟨a, d, w₁, hrun, hw₁, hcd, halways, hpost⟩ := h w hw.circuit
  -- labels that last to the end have lasted before
  have hc (hl : d.maxLabel + 1 < labelModulus) : c.Sound :=
    hw.reachable.sound (Circuit.maxLabel_lt_mono hcd hl)
  rw [← hcd.id] at hw₁
  exact ⟨a, w₁, d, ⟨hrun, hw₁, hcd, fun hl => (hpost hl (hc hl)).1⟩, halways,
    fun hl => (hpost hl (hc hl)).2.2⟩

/-- An operation that makes bits for these integers makes a word for them. -/
theorem Ensures.makes {m : Work Word} {f : Nat → (Nat → Bool) → Int}
    (h : Ensures c.id c m (fun z => z.owner = c.id) c.Sound fun z d =>
      d.Denotes z.bits (f d.bitwidth)) (hw : w.Holds c) :
    m.Makes w c fun σ n => n = f c.bitwidth σ := by
  obtain ⟨z, w₁, d, hlead, howner, hz⟩ := h.leads hw
  refine ⟨z, w₁, d, hlead, fun hl => ⟨⟨howner.trans hlead.grown.id.symm, (hz hl).ownsWord⟩, ?_⟩⟩
  intro σ
  rw [← hlead.grown.bitwidth]
  exact (hz hl).denote σ

namespace Leads

variable {m : Work α} {a : α}

/-- The circuit can be worked with as before. -/
theorem holds (h : m.Leads w c a w₁ d) (hw : w.Holds c) (hl : d.maxLabel + 1 < labelModulus) :
    w₁.Holds d :=
  ⟨h.circuit, hw.reachable.reaches (h.reaches hl)⟩

theorem eq_run (h : m.Leads w c a w₁ d) : w₁ = (m.run.run w).2 := by
  have hrun : m.run.run w = _ := h.runs
  rw [hrun]

/-- Whether the labels have lasted can be read off the run. -/
theorem maxLabel_lt (h : m.Leads w c a w₁ d)
    (hlast : (m.run.run w).2.circuits[c.id]?.all
      (fun d => decide (d.maxLabel + 1 < labelModulus)) = true) :
    d.maxLabel + 1 < labelModulus := by
  rw [← h.eq_run, ← h.grown.id, h.circuit] at hlast
  exact of_decide_eq_true hlast

end Leads

theorem Makes.imp {m : Work Word} {spec other : (Nat → Bool) → Int → Prop} (h : m.Makes w c spec)
    (himp : ∀ σ n, spec σ n → other σ n) : m.Makes w c other := by
  obtain ⟨z, w₁, d, hlead, hz⟩ := h
  exact ⟨z, w₁, d, hlead, fun hl => ⟨(hz hl).1, fun σ => himp σ _ ((hz hl).2 σ)⟩⟩

end Work

variable {w : Workspace} {c : Circuit} {x y : Word}

/-- **An operation on one word** makes the integer that it says, wrapped to the bitwidth. -/
theorem UnaryOp.makes (op : UnaryOp) (hw : w.Holds c) (hx : c.HasWord x) :
    (op.run x).Makes w c fun σ n => n = wrap c.bitwidth (op.onInt (x.denote σ)) :=
  Work.Ensures.makes (f := fun b σ => wrap b (op.onInt (x.denote σ)))
    (op.ensures_run hx.owner fun hc => ⟨hc, hx.owns⟩) hw

/-- **An operation on two words** of one circuit makes the integer that it says, wrapped to the
bitwidth. -/
theorem BinaryOp.makes (op : BinaryOp) (hw : w.Holds c) (hx : c.HasWord x) (hy : c.HasWord y) :
    (op.run x y).Makes w c fun σ n =>
      n = wrap c.bitwidth (op.onInt c.bitwidth (x.denote σ) (y.denote σ)) :=
  Work.Ensures.makes (f := fun b σ => wrap b (op.onInt b (x.denote σ) (y.denote σ)))
    (op.ensures_run hx.owner hy.owner fun hc => ⟨hc, hx.owns, hy.owns⟩) hw

end IntCircuit
