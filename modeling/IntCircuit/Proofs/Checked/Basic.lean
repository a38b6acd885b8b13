import IntCircuit.Proofs.Circuit.Gates

/-!
# Checked computations

Operations on bits are written over lists, where no position is out of reach and no loop keeps an
index. Kept in numbered slots, with loops that count, the same bits can be asked for where there are
none, a number can be taken from a smaller one, and what is taken for granted at some point may not
hold there. Each of these is a breach, and ends a checked computation.

## Main definitions

* `Breach`, `Checked`: what can go wrong, and computations that stop when it does
* `Checked.read`, `Checked.write`, `Checked.minus`, `Checked.require`: where it can go wrong
* `Checked.Follows`: a checked computation meets no breach and makes the gates of another
* `Checked.Made`: lists that are one, of the length wanted

## Main results

* `Checked.Follows.bind`: one computation after another
* `Checked.Follows.foldlM_range`, `Checked.Follows.mapM`: loops
-/

namespace IntCircuit

/-- What ends a checked computation. -/
inductive Breach where
  /-- A slot that is not there. -/
  | place (i size : Nat)
  /-- A number taken from a smaller one. -/
  | difference (a b : Nat)
  /-- A condition that does not hold where it is taken for granted. -/
  | condition
  deriving DecidableEq, Repr

/-- A computation that makes gates and stops at a breach. -/
abbrev Checked := ExceptT Breach Build

namespace Checked

section Primitives

variable {m : Type → Type} [Monad m] {α : Type}

/-- What is in a slot. -/
def read (slots : List α) (i : Nat) : ExceptT Breach m α :=
  match slots[i]? with
  | some a => pure a
  | none => throw (.place i slots.length)

/-- The slots with something else in one of them. -/
def write (slots : List α) (i : Nat) (a : α) : ExceptT Breach m (List α) :=
  if i < slots.length then pure (slots.set i a) else throw (.place i slots.length)

/-- A difference of numbers that are not negative. -/
def minus (a b : Nat) : ExceptT Breach m Nat :=
  if b ≤ a then pure (a - b) else throw (.difference a b)

/-- A condition that has to hold. -/
def require (p : Prop) [Decidable p] : ExceptT Breach m Unit :=
  if p then pure () else throw .condition

theorem read_eq {slots : List α} {i : Nat} {a : α} (h : slots[i]? = some a) :
    (read slots i : ExceptT Breach m α) = pure a := by
  rw [read, h]

theorem read_of_lt {slots : List α} {i : Nat} (h : i < slots.length) :
    (read slots i : ExceptT Breach m α) = pure slots[i] :=
  read_eq (List.getElem?_eq_getElem h)

theorem write_of_lt {slots : List α} {i : Nat} (h : i < slots.length) (a : α) :
    (write slots i a : ExceptT Breach m (List α)) = pure (slots.set i a) :=
  if_pos h

theorem minus_of_le {a b : Nat} (h : b ≤ a) : (minus a b : ExceptT Breach m Nat) = pure (a - b) :=
  if_pos h

theorem require_of {p : Prop} [Decidable p] (h : p) :
    (require p : ExceptT Breach m Unit) = pure () :=
  if_pos h

end Primitives

variable {α β γ δ ι : Type} {b : Nat}

/-- On every circuit of bitwidth `b` the checked computation meets no breach, leaves the circuit
that the plain one leaves, and their results are related. -/
def Follows (b : Nat) (m : Checked α) (plain : Build β) (rel : α → β → Prop) : Prop :=
  ∀ c : Circuit, c.bitwidth = b →
    ∃ a, m.run.run c = (.ok a, (plain.run c).2) ∧ (plain.run c).2.bitwidth = b ∧
      rel a (plain.run c).1

/-- The list made is that of the plain computation, and is as long as it should be. -/
structure Made (width : Nat) (made plain : List α) : Prop where
  eq : made = plain
  length : made.length = width

namespace Follows

variable {m : Checked α} {plain : Build β} {f : α → Checked γ} {g : β → Build δ}
  {rel weaker : α → β → Prop} {last : γ → δ → Prop}

protected theorem pure {a : α} {a' : β} (h : rel a a') : Follows b (pure a) (pure a') rel :=
  fun _ hb => ⟨a, rfl, hb, h⟩

/-- Gates are made without a check. -/
theorem gate (plain : Build α) [hg : Build.Grows plain] : Follows b (liftM plain) plain Eq :=
  fun c hb => ⟨_, rfl, (hg.grown c).bitwidth.trans hb, rfl⟩

/-- One computation after another. -/
protected theorem bind (hm : Follows b m plain rel)
    (hf : ∀ a a', rel a a' → Follows b (f a) (g a') last) :
    Follows b (m >>= f) (plain >>= g) last := by
  intro c hb
  obtain ⟨a, hrun, hbits, hrel⟩ := hm c hb
  obtain ⟨z, hrun', hbits', hlast⟩ := hf a _ hrel _ hbits
  refine ⟨z, ?_, hbits', hlast⟩
  have hstep : (m >>= f).run.run c = (f a).run.run (plain.run c).2 := by
    rw [ExceptT.run_bind, StateT.run_bind, hrun]
    rfl
  rw [hstep, hrun']
  rfl

/-- A gate that both make. -/
theorem gate_bind {plain : Build α} [Build.Grows plain] {f : α → Checked γ} {g : α → Build δ}
    (h : ∀ a, Follows b (f a) (g a) last) : Follows b (liftM plain >>= f) (plain >>= g) last :=
  (gate plain).bind fun a _ heq => heq ▸ h a

protected theorem mono (h : Follows b m plain rel) (himp : ∀ a a', rel a a' → weaker a a') :
    Follows b m plain weaker := by
  intro c hb
  obtain ⟨a, hrun, hbits, hrel⟩ := h c hb
  exact ⟨a, hrun, hbits, himp _ _ hrel⟩

/-- The checked computation looks at the circuit first. -/
theorem look {f : Circuit → Checked α}
    (h : ∀ c : Circuit, c.bitwidth = b → Follows b (f c) plain rel) :
    Follows b (get >>= f) plain rel :=
  fun c hb => h c hb c hb

/-- The plain computation looks at the circuit first. -/
theorem look_plain {g : Circuit → Build β}
    (h : ∀ c : Circuit, c.bitwidth = b → Follows b m (g c) rel) : Follows b m (get >>= g) rel :=
  fun c hb => h c hb c hb

/-- The checked computation goes on with its result. -/
theorem bind_left (hm : Follows b m plain rel) {f : α → Checked γ} {last : γ → β → Prop}
    (hf : ∀ a a', rel a a' → Follows b (f a) (pure a') last) : Follows b (m >>= f) plain last := by
  rw [← bind_pure plain]
  exact hm.bind hf

/-- The plain computation goes on with its result. -/
theorem bind_right (hm : Follows b m plain rel) {g : β → Build δ} {last : α → δ → Prop}
    (hg : ∀ a a', rel a a' → Follows b (pure a) (g a') last) : Follows b m (plain >>= g) last := by
  rw [← bind_pure m]
  exact hm.bind hg

/-- Rounds counted from 0, with what relates the two after so many of them. -/
theorem foldlM_range {step : α → Nat → Checked α} {plain : β → Nat → Build β}
    (inv : Nat → α → β → Prop) {rounds : Nat} {s : α} {t : β} (hstart : inv 0 s t)
    (h : ∀ i s t, i < rounds → inv i s t → Follows b (step s i) (plain t i) (inv (i + 1))) :
    Follows b ((List.range rounds).foldlM step s) ((List.range rounds).foldlM plain t)
      (inv rounds) := by
  induction rounds with
  | zero => exact .pure hstart
  | succ rounds ih =>
    rw [List.range_succ, List.foldlM_append, List.foldlM_append]
    refine (ih fun i s t hi => h i s t (Nat.lt_succ_of_lt hi)).bind fun s t hinv => ?_
    simp only [List.foldlM_cons, List.foldlM_nil]
    exact (h rounds s t (Nat.lt_succ_self rounds) hinv).bind fun _ _ hnext => .pure hnext

/-- One result for each item of a list. -/
protected theorem mapM {items : List ι} {make : ι → Checked α} {plain : ι → Build α}
    (h : ∀ i ∈ items, Follows b (make i) (plain i) Eq) :
    Follows b (items.mapM make) (items.mapM plain) (Made items.length) := by
  induction items with
  | nil => exact .pure ⟨rfl, rfl⟩
  | cons i rest ih =>
    rw [List.mapM_cons, List.mapM_cons]
    refine (h i List.mem_cons_self).bind fun n _ hn => ?_
    refine (ih fun j hj => h j (List.mem_cons_of_mem i hj)).bind fun made _ hmade => .pure ?_
    exact ⟨by rw [hn, hmade.eq], congrArg Nat.succ hmade.length⟩

end Follows

end Checked

end IntCircuit
