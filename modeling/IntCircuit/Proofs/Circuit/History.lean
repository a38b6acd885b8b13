import IntCircuit.Proofs.Circuit.Junctions

/-!
# The life of a circuit

A circuit that has come from a new one by any calls on its own nodes is sound until its labels come
round, and valid as long as they are positive. So every call computes its truth function, at any
moment, and what a circuit has handed out stays as it is.

## Main results

* `Circuit.Reaches.grown`, `Circuit.Reaches.sound`: what calls in any order preserve
* `Circuit.Reachable.sound`, `Circuit.Reachable.valid`: circuits are sound until labels come round,
  and valid as long as labels are positive
* `Circuit.Reachable.call_computes`: the value of what a call returns, and the lot of older nodes
-/

namespace IntCircuit.Circuit

variable {c d : Circuit}

theorem create_eq_ok {id numVariables : Nat} {settings : Settings}
    (h : create id numVariables settings = .ok c) :
    c.id = id ∧ c.numVariables = numVariables ∧ c.bitwidth = settings.bitwidth ∧
      c.sharing = settings.sharing ∧ c.gates = #[] ∧ c.shared = ∅ := by
  rw [create] at h
  split at h
  · split at h
    · cases h
      exact ⟨rfl, rfl, rfl, rfl, rfl, rfl⟩
    · cases h
  · cases h

theorem create_valid {id numVariables : Nat} {settings : Settings}
    (h : create id numVariables settings = .ok c) : c.Valid := by
  obtain ⟨-, -, -, -, hgates, hshared⟩ := create_eq_ok h
  have hnone (g : Node) : g ∉ c.gates := by simp [hgates]
  have hle : c.maxLabel ≤ labelLimit := by
    have hlt := c.numVariables_lt
    simp only [maxLabel, numGates, hgates, List.size_toArray, List.length_nil]
    omega
  refine ⟨⟨lt_labelModulus hle, ?_, fun g hg => absurd hg (hnone g),
    fun g hg => absurd hg (hnone g), ?_, fun _ g hg => absurd hg (hnone g)⟩, hle⟩
  · intro i hi
    simp [hgates] at hi
  · intro s g hs
    simp [hshared] at hs

/-- Calls only add to a circuit. -/
theorem Reaches.grown (h : c.Reaches d) : c ≤ d := by
  induction h with
  | refl => exact le_refl c
  | call call _ _ ih => exact ih.trans (Build.Grows.grown _)

/-- **Calls preserve soundness** until labels come round. -/
theorem Reaches.sound (h : c.Reaches d) (hc : c.Sound) (hl : d.maxLabel + 1 < labelModulus) :
    d.Sound := by
  induction h with
  | refl => exact hc
  | @call d call _ hown ih =>
    have hbefore := maxLabel_lt_mono (Build.Grows.grown (m := call.build) d) hl
    exact (call.ensures_truth (ih hbefore) hown hl).2.1

/-- Calls preserve validity as long as labels are positive. -/
theorem Reaches.valid (h : c.Reaches d) (hc : c.Valid) (hl : d.maxLabel ≤ labelLimit) :
    d.Valid :=
  ⟨h.sound hc (lt_labelModulus hl), hl⟩

/-- **A circuit is sound** until its labels come round, whatever calls it has come from. -/
theorem Reachable.sound (hc : c.Reachable) (hl : c.maxLabel + 1 < labelModulus) : c.Sound := by
  obtain ⟨_, _, _, start, hstart, hreach⟩ := hc
  exact hreach.sound (create_valid hstart) hl

/-- **A circuit is valid** as long as its labels are positive. -/
theorem Reachable.valid (hc : c.Reachable) (hl : c.maxLabel ≤ labelLimit) : c.Valid :=
  ⟨hc.sound (lt_labelModulus hl), hl⟩

/-- **Every call computes its truth function, and no later call touches what was handed out.** On
any reachable circuit, a call on nodes of the circuit returns a node of the circuit whose value is
the truth function of its operands. Whatever calls follow, that node and all older ones stay nodes
of the circuit, at their places among the gates, and no other node gets the label of one of them. -/
theorem Reachable.call_computes (hc : c.Reachable) (call : GateCall Node)
    (hown : ∀ n ∈ call.operands, c.Owns n) (hl : (call.build.run c).2.maxLabel ≤ labelLimit) :
    (call.build.run c).2.Owns (call.build.run c).1 ∧
      (∀ σ, (call.build.run c).1.eval σ = call.truth (Node.eval σ)) ∧
      ∀ e, (call.build.run c).2.Reaches e → e.maxLabel ≤ labelLimit →
        c.gates.toList <+: e.gates.toList ∧
          ∀ n, (n = (call.build.run c).1 ∨ c.Owns n) →
            e.Owns n ∧ ∀ m, e.Owns m → m.label = n.label → m = n := by
  have hgrown : c ≤ (call.build.run c).2 := Build.Grows.grown c
  have hvalid := hc.valid (Nat.le_trans (maxLabel_mono hgrown) hl)
  obtain ⟨-, hafter, hreads⟩ := call.ensures hvalid hown hl
  refine ⟨hreads.owns, hreads.eval, fun e he hle => ⟨(hgrown.trans he.grown).gates, fun n hn => ?_⟩⟩
  have howns : e.Owns n := by
    rcases hn with rfl | hn
    · exact hreads.owns.mono he.grown
    · exact hn.mono (hgrown.trans he.grown)
  exact ⟨howns, fun m hm hlabel => (he.valid hafter hle).eq_of_label hm howns hlabel⟩

/-- A new circuit with two variables, on which the third call shares what the first one made. -/
theorem call_computes_on_two_variables :
    ∃ c d e : Circuit, create 0 2 {} = .ok c ∧
      d = ((GateCall.xor (.var 1) (.var 2)).build.run c).2 ∧
      e = ((GateCall.not (.var 2)).build.run d).2 ∧ e.numGates = d.numGates ∧
      ((GateCall.not (.var 2)).build.run d).1.label = 3 ∧
      ∀ σ, ((GateCall.not (.var 2)).build.run d).1.eval σ = !σ 2 := by
  have hstart : create 0 2 {} = .ok ⟨0, 2, 4, true, by decide, by decide, by decide, #[], ∅⟩ := rfl
  refine ⟨_, _, _, hstart, rfl, rfl, by decide, by decide, fun σ => ?_⟩
  have hreach := Reachable.reaches ⟨0, 2, {}, _, hstart, .refl⟩
    (.single (.xor (.var 1) (.var 2)) (by simp [GateCall.operands, Owns]))
  refine ((hreach.call_computes (.not (.var 2)) (fun n hn => ?_) (by decide)).2.1 σ).trans
    (by rw [GateCall.truth, Node.eval_var])
  rw [List.mem_singleton.mp hn]
  exact ⟨by decide, by decide⟩

end IntCircuit.Circuit
