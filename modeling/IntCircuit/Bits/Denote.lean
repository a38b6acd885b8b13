import IntCircuit.Node.Eval
import IntCircuit.Word.Basic

/-!
# The integer of a list of bits

What bits stand for under an assignment of the variables. Sign extension does not change it, which
is why integers of different widths can meet.

## Main definitions

* `Bits.denote`, `Word.denote`: the integer under an assignment

## Main results

* `Bits.denote_extend`: sign extension keeps the integer
* `Bits.constants?_eq_some`, `Bits.denote_of_constants`: constants stand for the same integer
  everywhere
-/

namespace IntCircuit

/-- A bit that is not the last one has positive weight. -/
theorem decode_cons {rest : List Bool} (h : rest ≠ []) (bit : Bool) :
    decode (bit :: rest) = (if bit then 1 else 0) + 2 * decode rest := by
  cases rest with
  | nil => exact absurd rfl h
  | cons next rest => rfl

/-- Copies of the last bit after it change nothing. -/
theorem decode_append_replicate (values : List Bool) (sign : Bool) (n : Nat) :
    decode ((values ++ [sign]) ++ List.replicate n sign) = decode (values ++ [sign]) := by
  induction values with
  | nil =>
    induction n with
    | zero => rfl
    | succ n ih =>
      rw [List.nil_append, List.singleton_append] at ih ⊢
      rw [List.replicate_succ, decode_cons (List.cons_ne_nil _ _), ih]
      cases sign <;> rfl
  | cons value rest ih =>
    rw [List.cons_append, List.cons_append, decode_cons (by simp), decode_cons (by simp), ih]

namespace Bits

/-- The integer that the bits stand for when variable `v` has the value `σ v`. -/
def denote (σ : Nat → Bool) (x : Bits) : Int :=
  decode (x.map (Node.eval σ))

/-- The last bit of bits that are not empty. -/
theorem sign_append (x : Bits) (n : Node) : sign (x ++ [n]) = n := by
  simp [sign, bit]

@[simp] theorem length_extend (x : Bits) (width : Nat) :
    (x.extend width).length = max x.length width := by
  simp only [extend, List.length_append, List.length_replicate]
  omega

/-- Sign extension keeps the integer. -/
theorem denote_extend (σ : Nat → Bool) {x : Bits} (hx : x ≠ []) (width : Nat) :
    (x.extend width).denote σ = x.denote σ := by
  obtain ⟨rest, n, rfl⟩ : ∃ rest n, x = rest ++ [n] :=
    ⟨x.dropLast, x.getLast hx, (List.dropLast_concat_getLast hx).symm⟩
  rw [denote, denote, extend, sign_append, List.map_append, List.map_append, List.map_replicate]
  exact decode_append_replicate _ _ _

/-- Bits have values exactly if they are constants with these values. -/
theorem constants?_eq_some {x : Bits} {values : List Bool} :
    x.constants? = some values ↔ x = values.map .const := by
  induction x generalizing values with
  | nil => cases values <;> simp [constants?]
  | cons n rest ih =>
    have hcons : constants? (n :: rest) = some values ↔
        ∃ value, n.constant? = some value ∧ ∃ others, rest = others.map .const ∧
          value :: others = values := by
      simp [constants?, Option.bind_eq_some_iff, ← ih]
    rw [hcons]
    constructor
    · rintro ⟨value, hvalue, others, rfl, rfl⟩
      cases n <;> cases hvalue
      rfl
    · intro h
      cases values with
      | nil => cases h
      | cons value others =>
        cases h
        exact ⟨value, rfl, others, rfl, rfl⟩

/-- The values of constants are those under any assignment. -/
theorem map_eval_of_constants (σ : Nat → Bool) {x : Bits} {values : List Bool}
    (h : x.constants? = some values) : x.map (Node.eval σ) = values := by
  rw [constants?_eq_some.mp h, List.map_map]
  exact List.map_id values

/-- Constants stand for the same integer under every assignment. -/
theorem denote_of_constants (σ : Nat → Bool) {x : Bits} {values : List Bool}
    (h : x.constants? = some values) : x.denote σ = decode values := by
  rw [denote, map_eval_of_constants σ h]

end Bits

/-- The integer that a word stands for when variable `v` has the value `σ v`. -/
def Word.denote (σ : Nat → Bool) (x : Word) : Int :=
  x.bits.denote σ

end IntCircuit
