import IntCircuit.Proofs.Word.Refusal
import Mathlib.Data.Finset.Range

/-!
# Words of different circuits

A call on words of different circuits is refused, wherever among its words the foreign one is. Most
calls find it before they make a gate, so that the refusal leaves every circuit as it was. A sum or
product of many words does so only if the foreign word is the first that the call meets; otherwise
there are words for which it leaves gates.

## Main definitions

* `Meeting`: calls on a word and others
* `Meeting.Prompt`: calls that find foreign words before they make gates

## Main results

* `Meeting.exists_refuses`: foreign words are refused
* `Meeting.refuses_foreign`: the calls that leave every circuit as it was
* `Word.sumAll_leaves_gates`: a sum that does not
-/

namespace IntCircuit

/-! ## Calls on a word and others -/

/-- Calls on a word and others, with what the words are given by. -/
inductive Meeting (α : Type) where
  | relation (op : Relation) (x y : α)
  | binary (op : BinaryOp) (x y : α)
  | choose (condition : Node) (x y : α)
  | fold (op : FoldOp) (x : α) (others : List α)

namespace Meeting

variable {α β : Type}

/-- The word whose circuit a call works in. -/
def receiver : Meeting α → α
  | relation _ x _ => x
  | binary _ x _ => x
  | choose _ x _ => x
  | fold _ x _ => x

/-- The other words of a call. -/
def others : Meeting α → List α
  | relation _ _ y => [y]
  | binary _ _ y => [y]
  | choose _ _ y => [y]
  | fold _ _ others => others

/-- The same call on other words. -/
def map (f : α → β) : Meeting α → Meeting β
  | relation op x y => relation op (f x) (f y)
  | binary op x y => binary op (f x) (f y)
  | choose condition x y => choose condition (f x) (f y)
  | fold op x others => fold op (f x) (others.map f)

/-- What a call makes: a node or a word. -/
def run : Meeting Word → Work (Node ⊕ Word)
  | relation op x y => do return .inl (← op.run x y)
  | binary op x y => do return .inr (← op.run x y)
  | choose condition x y => do return .inr (← Word.choose condition x y)
  | fold op x others => do return .inr (← op.run x others)

/-- Whether a call on words of these circuits finds a foreign one before it makes any gate: always,
but for sums and products, which do so if the first of the others is foreign. -/
def Prompt : Meeting Nat → Prop
  | fold .sum id ids => ids.head? ≠ some id
  | fold .product id ids => ids.head? ≠ some id
  | _ => True

theorem receiver_map (f : α → β) (call : Meeting α) : (call.map f).receiver = f call.receiver := by
  cases call <;> rfl

theorem others_map (f : α → β) (call : Meeting α) : (call.map f).others = call.others.map f := by
  cases call <;> rfl

end Meeting

/-- The words of a call are words of circuits of the workspace. -/
def Workspace.HasWords (w : Workspace) (call : Meeting Word) : Prop :=
  ∀ x ∈ call.receiver :: call.others, ∃ c, w.Holds c ∧ c.HasWord x

theorem Workspace.HasWords.owner_lt {w : Workspace} {call : Meeting Word} (h : w.HasWords call) :
    ∀ x ∈ call.receiver :: call.others, x.owner < w.circuits.size := by
  intro x hx
  obtain ⟨c, hc, hword⟩ := h x hx
  rw [hword.owner]
  exact (Array.getElem?_eq_some_iff.mp hc.circuit).1

namespace Meeting

variable {w : Workspace} {call : Meeting Word}

/-- A foreign word that is found before any gate is made changes nothing. -/
theorem refuses_of_prompt (hforeign : ∃ y ∈ call.others, y.owner ≠ call.receiver.owner)
    (hprompt : (call.map Word.owner).Prompt) (w : Workspace) : call.run.Refuses w w := by
  obtain ⟨z, hz, hne⟩ := hforeign
  cases call with
  | relation op x y =>
    obtain rfl := List.mem_singleton.mp hz
    exact (op.refuses_run hne.symm w).bind
  | binary op x y =>
    obtain rfl := List.mem_singleton.mp hz
    exact (op.refuses_run hne.symm w).bind
  | choose condition x y =>
    obtain rfl := List.mem_singleton.mp hz
    exact (Word.refuses_binary _ hne.symm w).bind
  | fold op x others =>
    cases others with
    | nil => exact (List.not_mem_nil hz).elim
    | cons y rest =>
      have hhead (h : (y.owner :: rest.map Word.owner).head? ≠ some x.owner) :
          x.owner ≠ y.owner := fun hxy => h (congrArg some hxy.symm)
      cases op with
      | sum => exact (Word.refuses_combineTree Bits.add (hhead hprompt) w).bind
      | product => exact (Word.refuses_combineTree Bits.mul (hhead hprompt) w).bind
      | join op => exact (Word.refuses_joinAll op ⟨z, hz, hne⟩ w).bind

/-- **Foreign words are refused**, and what there was before is there after. -/
theorem exists_refuses (hw : w.HasWords call)
    (hforeign : ∃ y ∈ call.others, y.owner ≠ call.receiver.owner) :
    ∃ w₁, call.run.Refuses w w₁ ∧ w ≤ w₁ := by
  have hprompt (h : (call.map Word.owner).Prompt) : ∃ w₁, call.run.Refuses w w₁ ∧ w ≤ w₁ :=
    ⟨w, refuses_of_prompt hforeign h w, le_refl w⟩
  obtain ⟨hx, hothers⟩ := List.forall_mem_cons.mp hw.owner_lt
  -- all words of a tree that is not refused would be of one circuit
  have htree (op : Bits → Bits → Build Bits) [∀ x y, Build.Grows (op x y)] :
      ∃ w₁, (combineTree (Word.binary op) call.receiver call.others).Refuses w w₁ ∧ w ≤ w₁ := by
    refine (Word.ends_combineTree hx hothers).refuses (Nat.le_refl _) fun _ hsame => ?_
    obtain ⟨y, hy, hne⟩ := hforeign
    exact hne (hsame y hy)
  cases call with
  | relation | binary | choose => exact hprompt trivial
  | fold op x others =>
    cases op with
    | sum =>
      obtain ⟨w₁, hrefuses, hle⟩ := htree Bits.add
      exact ⟨w₁, hrefuses.bind, hle⟩
    | product =>
      obtain ⟨w₁, hrefuses, hle⟩ := htree Bits.mul
      exact ⟨w₁, hrefuses.bind, hle⟩
    | join => exact hprompt trivial

end Meeting

/-! ## Gates that stay -/

/-- A new circuit with two variables and the bitwidth 1. -/
def Circuit.ofTwoVariables (id : Nat) : Circuit :=
  ⟨id, 2, 1, false, by decide, by decide, by decide, #[], ∅⟩

/-- New circuits, as many as this. -/
def Workspace.ofTwoVariables (count : Nat) : Workspace :=
  ⟨Array.ofFn fun i : Fin count => .ofTwoVariables i⟩

theorem Workspace.holds_ofTwoVariables {count id : Nat} (h : id < count) :
    (ofTwoVariables count).Holds (.ofTwoVariables id) := by
  have hcreate : Circuit.create id 2 ⟨1, false⟩ = .ok (.ofTwoVariables id) := rfl
  refine ⟨?_, .of_create hcreate⟩
  rw [ofTwoVariables, Array.getElem?_ofFn, dif_pos]
  · rfl
  · exact h

/-- One of the two variables as a word. -/
def Word.ofVariable (v id : Nat) : Word :=
  ⟨id, [.var v]⟩

theorem Circuit.hasWord_ofVariable {v : Nat} (hpos : 0 < v) (hle : v ≤ 2) (id : Nat) :
    (ofTwoVariables id).HasWord (.ofVariable v id) := by
  have hword : (ofTwoVariables id).HasWord ⟨id, (List.range' v (v + 1 - v)).map .var⟩ :=
    .range hpos (Nat.lt_succ_self v) hle (Nat.le_of_eq (Nat.add_sub_cancel_left v 1))
  rwa [Nat.add_sub_cancel_left] at hword

namespace Meeting

/-- A call on words of one variable: the first variable of a circuit for the word that the call is
made on, and the second for each other word. -/
def onVariables : Meeting Nat → Meeting Word
  | relation op id i => relation op (.ofVariable 1 id) (.ofVariable 2 i)
  | binary op id i => binary op (.ofVariable 1 id) (.ofVariable 2 i)
  | choose condition id i => choose condition (.ofVariable 1 id) (.ofVariable 2 i)
  | fold op id ids => fold op (.ofVariable 1 id) (ids.map (.ofVariable 2))

theorem owner_onVariables (shape : Meeting Nat) : shape.onVariables.map Word.owner = shape := by
  cases shape with
  | relation | binary | choose => rfl
  | fold op id ids =>
    rw [onVariables, map, List.map_map]
    exact congrArg (fold op id) (List.map_id ids)

theorem others_onVariables (shape : Meeting Nat) :
    shape.onVariables.others = shape.others.map (.ofVariable 2) := by
  cases shape <;> rfl

theorem hasWords_onVariables {shape : Meeting Nat} {count : Nat}
    (h : ∀ i ∈ shape.receiver :: shape.others, i < count) :
    (Workspace.ofTwoVariables count).HasWords shape.onVariables := by
  obtain ⟨hid, hids⟩ := List.forall_mem_cons.mp h
  have hreceiver : shape.onVariables.receiver = .ofVariable 1 shape.receiver := by
    cases shape <;> rfl
  rw [Workspace.HasWords, hreceiver, others_onVariables]
  refine List.forall_mem_cons.mpr ⟨?_, fun x hx => ?_⟩
  · exact ⟨_, Workspace.holds_ofTwoVariables hid,
      Circuit.hasWord_ofVariable (by decide) (by decide) _⟩
  · obtain ⟨i, hi, rfl⟩ := List.mem_map.mp hx
    exact ⟨_, Workspace.holds_ofTwoVariables (hids i hi),
      Circuit.hasWord_ofVariable (by decide) (by decide) _⟩

end Meeting

/-- Two variables that make a gate leave it, if any word after them is refused. -/
theorem Word.not_refuses_combineTree (op : Bits → Bits → Build Bits) [∀ x y, Build.Grows (op x y)]
    {count id : Nat} {ids : List Nat} (hhead : ids.head? = some id) (hids : ∀ i ∈ ids, i < count)
    (hgates : 0 < ((op [.var 1] [.var 2]).run (.ofTwoVariables id)).2.numGates) :
    ¬(combineTree (binary op) (.ofVariable 1 id) (ids.map (.ofVariable 2))).Refuses
      (.ofTwoVariables count) (.ofTwoVariables count) := by
  obtain ⟨rest, rfl⟩ := List.head?_eq_some_iff.mp hhead
  obtain ⟨hid, hrest⟩ := List.forall_mem_cons.mp hids
  intro h
  have hcircuit := (Workspace.holds_ofTwoVariables hid).circuit
  have hsize : ∀ z ∈ rest.map (ofVariable 2),
      z.owner < (Workspace.ofTwoVariables count).circuits.size := by
    intro z hz
    obtain ⟨i, hi, rfl⟩ := List.mem_map.mp hz
    rw [Workspace.ofTwoVariables, Array.size_ofFn]
    exact hrest i hi
  obtain ⟨d, hd, hgrown⟩ := grown_of_refuses_combineTree (x := ofVariable 1 id)
    (y := ofVariable 2 id) rfl hcircuit hsize h
  -- the circuit without gates is a later state of one with a gate
  obtain rfl := Option.some.inj (hcircuit.symm.trans hd)
  exact absurd (Circuit.numGates_mono hgrown) (Nat.not_le_of_lt hgates)

namespace Meeting

/-- **Calls that are not prompt** leave gates, on words of some circuits. -/
theorem exists_not_refuses {shape : Meeting Nat} (h : ¬shape.Prompt) :
    ∃ (w : Workspace) (call : Meeting Word), call.map Word.owner = shape ∧ w.HasWords call ∧
      ¬call.run.Refuses w w := by
  obtain ⟨count, hcount⟩ :=
    Finset.exists_nat_subset_range (shape.receiver :: shape.others).toFinset
  have hlt : ∀ i ∈ shape.receiver :: shape.others, i < count := fun i hi =>
    Finset.mem_range.mp (hcount (List.mem_toFinset.mpr hi))
  refine ⟨_, _, owner_onVariables shape, hasWords_onVariables hlt, fun hrefuses => ?_⟩
  cases shape with
  | relation | binary | choose => exact h trivial
  | fold op id ids =>
    have hids : ∀ i ∈ ids, i < count := (List.forall_mem_cons.mp hlt).2
    cases op with
    | join => exact h trivial
    | sum =>
      exact Word.not_refuses_combineTree Bits.add (not_not.mp h) hids
        (Nat.zero_lt_succ _) (Work.refuses_map.mp hrefuses)
    | product =>
      exact Word.not_refuses_combineTree Bits.mul (not_not.mp h) hids
        (Nat.zero_lt_succ _) (Work.refuses_map.mp hrefuses)

/-- **A call on words of different circuits** is refused, and no circuit of the workspace loses
anything. For given circuits of the words, the refusal leaves every circuit as it was, whatever the
words are and whatever was made before, exactly if the call is prompt. -/
theorem refuses_foreign (shape : Meeting Nat)
    (hforeign : ∃ id ∈ shape.others, id ≠ shape.receiver) :
    (∀ (w : Workspace) (call : Meeting Word), call.map Word.owner = shape → w.HasWords call →
      ∃ w₁, call.run.Refuses w w₁ ∧ w ≤ w₁) ∧
    ((∀ (w : Workspace) (call : Meeting Word), call.map Word.owner = shape → w.HasWords call →
      call.run.Refuses w w) ↔ shape.Prompt) := by
  have hword (call : Meeting Word) (h : call.map Word.owner = shape) :
      ∃ y ∈ call.others, y.owner ≠ call.receiver.owner := by
    obtain ⟨id, hid, hne⟩ := hforeign
    rw [← h, others_map] at hid
    rw [← h, receiver_map] at hne
    obtain ⟨y, hy, rfl⟩ := List.mem_map.mp hid
    exact ⟨y, hy, hne⟩
  refine ⟨fun w call h hw => exists_refuses hw (hword call h), fun hall => ?_, ?_⟩
  · by_contra hprompt
    obtain ⟨w, call, h, hw, hnot⟩ := exists_not_refuses hprompt
    exact hnot (hall w call h hw)
  · intro hprompt w call h _
    exact refuses_of_prompt (hword call h) (h ▸ hprompt) w

/-- The sum and the conjunction of three words of which the last is foreign. -/
theorem refuses_foreign_of_last :
    (∃ id ∈ [0, 1], id ≠ 0) ∧
      (∃ w₁, (Word.sumAll (.ofVariable 1 0) [.ofVariable 2 0, .ofVariable 2 1]).Refuses
        (.ofTwoVariables 2) w₁ ∧ .ofTwoVariables 2 ≤ w₁) ∧
      (Word.joinAll .and (.ofVariable 1 0) [.ofVariable 2 0, .ofVariable 2 1]).Refuses
        (.ofTwoVariables 2) (.ofTwoVariables 2) := by
  have hforeign : ∃ id ∈ [0, 1], id ≠ 0 := ⟨1, by decide, by decide⟩
  have hwords (op : FoldOp) :
      (Workspace.ofTwoVariables 2).HasWords (onVariables (.fold op 0 [0, 1])) :=
    hasWords_onVariables (by simp [receiver, others])
  obtain ⟨w₁, hsum, hle⟩ := (refuses_foreign (.fold .sum 0 [0, 1]) hforeign).1
    (.ofTwoVariables 2) _ (owner_onVariables _) (hwords .sum)
  have hand := (refuses_foreign (.fold (.join .and) 0 [0, 1]) hforeign).2.mpr trivial
    (.ofTwoVariables 2) _ (owner_onVariables _) (hwords (.join .and))
  exact ⟨hforeign, ⟨w₁, Work.refuses_map.mp hsum, hle⟩, Work.refuses_map.mp hand⟩

end Meeting

/-- The first two words of a sum have been added when the third is refused. -/
theorem Word.sumAll_leaves_gates :
    ∃ w₀ w w₁ c d, Runs (Work.create 2 {}) {} 0 w₀ ∧ Runs (Work.create 1 {}) w₀ 1 w ∧
      (sumAll ⟨0, [.var 1]⟩ [⟨0, [.var 2]⟩, ⟨1, [.var 1]⟩]).Refuses w w₁ ∧
      w.circuits[0]? = some c ∧ w₁.circuits[0]? = some d ∧ c.numGates < d.numGates := by
  let w₀ : Workspace := ((Work.create 2 {}).run.run {}).2
  let w : Workspace := ((Work.create 1 {}).run.run w₀).2
  let r := (sumAll ⟨0, [.var 1]⟩ [⟨0, [.var 2]⟩, ⟨1, [.var 1]⟩]).run.run w
  have hfault : (match r.1 with
      | .error fault => decide (fault = .foreignWord [4, 7] [1])
      | .ok _ => false) = true := by decide +kernel
  have hbefore : w.circuits[0]?.map Circuit.numGates = some 0 := by decide +kernel
  have hafter : r.2.circuits[0]?.map Circuit.numGates = some 7 := by decide +kernel
  obtain ⟨c, hc, hzero⟩ := Option.map_eq_some_iff.mp hbefore
  obtain ⟨d, hd, hseven⟩ := Option.map_eq_some_iff.mp hafter
  refine ⟨w₀, w, r.2, c, d, rfl, rfl, ⟨[4, 7], [1], ?_⟩, hc, hd, by omega⟩
  change r = _
  clear_value r
  obtain ⟨result, w₁⟩ := r
  cases result with
  | error fault => rw [of_decide_eq_true hfault]
  | ok _ => cases hfault

end IntCircuit
