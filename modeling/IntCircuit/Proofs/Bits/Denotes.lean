import IntCircuit.Proofs.Bits.Decode
import IntCircuit.Proofs.Circuit.Junctions

/-!
# Bits that stand for an integer

What operations on integers say of their results: bits of a circuit that stand for a given integer
under every assignment. On the way there bits are judged by their number alone, up to multiples of
a power of two, as that is what adders keep.

## Main definitions

* `Circuit.Denotes`: bits that stand for an integer
* `Circuit.Counts`: bits whose number is congruent to an integer

## Main results

* `Circuit.Counts.denotes`: bits of the right number stand for the wrapped integer
* `Circuit.Denotes.extend`: sign extension, by number
* `Bits.eval_sign_eq`: the last bit tells whether the integer is negative
-/

namespace IntCircuit

namespace Bits

theorem bit_of_lt {x : Bits} {i : Nat} (h : i < x.length) : x.bit i = x[i] := by
  rw [bit, Nat.min_eq_left (by omega), List.getD_eq_getElem?_getD, List.getElem?_eq_getElem h,
    Option.getD_some]

/-- From the last bit on, all bits are the sign. -/
theorem bit_of_le {x : Bits} {i : Nat} (h : x.length ≤ i + 1) : x.bit i = x.sign := by
  have hmin : min i (x.length - 1) = min (x.length - 1) (x.length - 1) := by omega
  rw [sign, bit, bit, hmin]

/-- Without any bit it is a constant. -/
theorem bit_mem_or_eq (x : Bits) (i : Nat) : x.bit i ∈ x ∨ x.bit i = .const false := by
  rw [bit, List.getD_eq_getElem?_getD]
  cases h : x[min i (x.length - 1)]? with
  | none => exact .inr rfl
  | some n => exact .inl (List.mem_of_getElem? h)

theorem extend_length (x : Bits) : x.extend x.length = x := by
  rw [extend, Nat.sub_self, List.replicate_zero, List.append_nil]

theorem extend_eq_map_bit {x : Bits} {width : Nat} (h : x.length ≤ width) :
    x.extend width = (List.range width).map x.bit := by
  apply List.ext_getElem (by simpa using h)
  intro i hi _
  rw [List.getElem_map, List.getElem_range]
  -- the bits themselves come first, and then copies of the last one
  by_cases hlt : i < x.length
  · rw [bit_of_lt hlt]
    exact List.getElem_append_left hlt
  · rw [bit_of_le (by omega)]
    exact (List.getElem_append_right (by omega)).trans (List.getElem_replicate _)

/-- The last bit of an extension. -/
theorem extend_succ {x : Bits} {width : Nat} (h : x.length ≤ width + 1) :
    x.extend (width + 1) = (List.range width).map x.bit ++ [x.bit width] := by
  rw [extend_eq_map_bit h, List.range_succ, List.map_append, List.map_singleton]

/-- **The last bit** tells whether the integer is negative. -/
theorem eval_sign_eq {x : Bits} (hx : x ≠ []) (σ : Nat → Bool) :
    x.sign.eval σ = decide (x.denote σ < 0) := by
  obtain ⟨rest, n, rfl⟩ : ∃ rest n, x = rest ++ [n] :=
    ⟨x.dropLast, x.getLast hx, (List.dropLast_concat_getLast hx).symm⟩
  rw [sign_append, Bool.eq_iff_iff, decide_eq_true_iff, denote, List.map_append,
    List.map_singleton, decode_lt_zero]

/-- Some bit is set unless the integer is zero. -/
theorem any_eval_eq (x : Bits) (σ : Nat → Bool) :
    x.any (Node.eval σ) = decide (x.denote σ ≠ 0) := by
  have hzero : x.any (Node.eval σ) = false ↔ x.denote σ = 0 := by
    rw [denote, decode_eq_zero, List.any_eq_false, List.forall_mem_map]
    simp
  rw [Bool.eq_iff_iff, decide_eq_true_iff, ← not_iff_not, Bool.not_eq_true, hzero, not_not]

theorem length_extend_of_le {x : Bits} {width : Nat} (h : x.length ≤ width) :
    (x.extend width).length = width := by
  rw [length_extend, Nat.max_eq_right h]

end Bits

namespace Circuit

variable {c d : Circuit} {x y : Bits} {w : Nat} {f g : (Nat → Bool) → Int}

theorem owns_bit (hx : ∀ n ∈ x, c.Owns n) (i : Nat) : c.Owns (x.bit i) := by
  rcases x.bit_mem_or_eq i with hmem | heq
  · exact hx _ hmem
  · rw [heq]
    exact c.owns_const false

theorem owns_sign (hx : ∀ n ∈ x, c.Owns n) : c.Owns x.sign :=
  owns_bit hx _

theorem owns_extend (hx : ∀ n ∈ x, c.Owns n) (width : Nat) : ∀ n ∈ x.extend width, c.Owns n := by
  intro n hn
  rcases List.mem_append.mp hn with hn | hn
  · exact hx n hn
  · rw [(List.mem_replicate.mp hn).2]
    exact owns_bit hx _

/-- Bits of the circuit that stand for this integer under every assignment. -/
structure Denotes (d : Circuit) (x : Bits) (value : (Nat → Bool) → Int) : Prop where
  owns : ∀ n ∈ x, d.Owns n
  width_pos : 0 < x.length
  width_le : x.length ≤ d.bitwidth
  denote : ∀ σ, x.denote σ = value σ

/-- So many bits of the circuit whose number is congruent to this integer under every
assignment. -/
structure Counts (d : Circuit) (x : Bits) (width : Nat) (value : (Nat → Bool) → Int) : Prop where
  owns : ∀ n ∈ x, d.Owns n
  length : x.length = width
  modEq : ∀ σ, unsigned (x.map (Node.eval σ)) ≡ value σ [ZMOD 2 ^ width]

namespace Counts

theorem mono (h : c ≤ d) (hx : c.Counts x w f) : d.Counts x w f :=
  ⟨fun n hn => (hx.owns n hn).mono h, hx.length, hx.modEq⟩

theorem congr (hx : d.Counts x w f) (h : ∀ σ, f σ ≡ g σ [ZMOD 2 ^ w]) : d.Counts x w g :=
  ⟨hx.owns, hx.length, fun σ => (hx.modEq σ).trans (h σ)⟩

/-- Nodes count what their values do. -/
theorem of_owns (hx : ∀ n ∈ x, d.Owns n) :
    d.Counts x x.length fun σ => unsigned (x.map (Node.eval σ)) :=
  ⟨hx, rfl, fun _ => rfl⟩

/-- Bits in front of others. -/
theorem append {low high : Bits} {more : Nat} (hlow : ∀ n ∈ low, d.Owns n)
    (hhigh : d.Counts high more f) :
    d.Counts (low ++ high) (low.length + more) fun σ =>
      unsigned (low.map (Node.eval σ)) + 2 ^ low.length * f σ := by
  refine ⟨?_, by rw [List.length_append, hhigh.length], ?_⟩
  · intro n hn
    rcases List.mem_append.mp hn with hn | hn
    · exact hlow n hn
    · exact hhigh.owns n hn
  · intro σ
    rw [List.map_append, unsigned_append, List.length_map, pow_add]
    exact ((hhigh.modEq σ).mul_left').add_left _

/-- A bit below others. -/
theorem cons {n : Node} (hn : d.Owns n) (hx : d.Counts x w f) :
    d.Counts (n :: x) (w + 1) fun σ => bitValue (n.eval σ) + 2 * f σ := by
  refine ⟨?_, by rw [List.length_cons, hx.length], ?_⟩
  · intro m hm
    rcases List.mem_cons.mp hm with rfl | hm
    · exact hn
    · exact hx.owns m hm
  · intro σ
    rw [List.map_cons, unsigned_cons, pow_succ']
    exact (hx.modEq σ).mul_left'.add_left _

/-- The lowest bits. -/
theorem take {k : Nat} (hx : d.Counts x w f) (hk : k ≤ w) : d.Counts (x.take k) k f := by
  refine ⟨fun n hn => hx.owns n (List.mem_of_mem_take hn), ?_, ?_⟩
  · rw [List.length_take, hx.length, Nat.min_eq_left hk]
  · intro σ
    rw [List.map_take]
    exact (unsigned_take_modEq _ _).trans ((hx.modEq σ).of_dvd (pow_dvd_pow 2 hk))

/-- A bit that comes in below, where the highest one is lost. -/
theorem shiftIn {n : Node} (hn : d.Owns n) (hx : d.Counts x w f) (hpos : 0 < w) :
    d.Counts (n :: x.dropLast) w fun σ => bitValue (n.eval σ) + 2 * f σ := by
  have hrest := cons hn (hx.take (Nat.sub_le w 1))
  rwa [← hx.length, ← List.dropLast_eq_take, hx.length, Nat.sub_add_cancel hpos] at hrest

/-- The bits stand for the integer, wrapped to their width. -/
theorem denote (hx : d.Counts x w f) (σ : Nat → Bool) : x.denote σ = wrap w (f σ) :=
  decode_eq_wrap (by rw [List.length_map, hx.length]) (hx.modEq σ)

theorem denote_of_inRange (hx : d.Counts x w f) {σ : Nat → Bool} (h : InRange w (f σ)) :
    x.denote σ = f σ := by
  rw [hx.denote, wrap_of_inRange h]

/-- The highest bit is the sign of an integer that fits the width. -/
theorem eval_sign (hx : d.Counts x w f) (hpos : 0 < w) {σ : Nat → Bool} (h : InRange w (f σ)) :
    x.sign.eval σ = decide (f σ < 0) := by
  rw [Bits.eval_sign_eq (List.ne_nil_of_length_pos (hx.length ▸ hpos)), hx.denote_of_inRange h]

/-- **Bits of the right number stand for the wrapped integer**, if they are as many as the bitwidth
says or enough for it without wrapping. -/
theorem denotes (hx : d.Counts x w f) (hpos : 0 < w) (hle : w ≤ d.bitwidth)
    (h : w = d.bitwidth ∨ ∀ σ, InRange w (f σ)) :
    d.Denotes x fun σ => wrap d.bitwidth (f σ) := by
  refine ⟨hx.owns, hx.length ▸ hpos, hx.length ▸ hle, fun σ => ?_⟩
  rw [hx.denote]
  exact wrap_eq_wrap hle (h.imp_right fun hrange => hrange σ)

end Counts

namespace Denotes

theorem mono (h : c ≤ d) (hx : c.Denotes x f) : d.Denotes x f :=
  ⟨fun n hn => (hx.owns n hn).mono h, hx.width_pos, h.bitwidth ▸ hx.width_le, hx.denote⟩

theorem congr (hx : d.Denotes x f) (h : ∀ σ, f σ = g σ) : d.Denotes x g :=
  ⟨hx.owns, hx.width_pos, hx.width_le, fun σ => (hx.denote σ).trans (h σ)⟩

theorem ne_nil (hx : d.Denotes x f) : x ≠ [] :=
  List.ne_nil_of_length_pos hx.width_pos

/-- The integer fits the width of the bits. -/
theorem inRange_length (hx : d.Denotes x f) (σ : Nat → Bool) : InRange x.length (f σ) := by
  have h := inRange_decode (x.map (Node.eval σ))
  rw [List.length_map] at h
  exact hx.denote σ ▸ h

theorem inRange (hx : d.Denotes x f) (σ : Nat → Bool) : InRange d.bitwidth (f σ) :=
  (hx.inRange_length σ).mono hx.width_le

/-- Wrapping does nothing to an integer that bits stand for. -/
theorem wrap (hx : d.Denotes x f) : d.Denotes x fun σ => wrap d.bitwidth (f σ) :=
  hx.congr fun σ => (wrap_of_inRange (hx.inRange σ)).symm

/-- **Sign extension**, by number. -/
theorem extend (hx : d.Denotes x f) (hle : x.length ≤ w) :
    d.Counts (x.extend w) w f := by
  refine ⟨owns_extend hx.owns w, Bits.length_extend_of_le hle, fun σ => ?_⟩
  have h := decode_modEq ((x.extend w).map (Node.eval σ))
  rw [List.length_map, Bits.length_extend_of_le hle] at h
  rw [← hx.denote σ, ← Bits.denote_extend σ hx.ne_nil w]
  exact h.symm

/-- The integer by the bits of an extension. -/
theorem decode_extend (hx : d.Denotes x f) (width : Nat) (σ : Nat → Bool) :
    decode ((x.extend width).map (Node.eval σ)) = f σ :=
  (Bits.denote_extend σ hx.ne_nil width).trans (hx.denote σ)

theorem eval_sign (hx : d.Denotes x f) (σ : Nat → Bool) :
    x.sign.eval σ = decide (f σ < 0) := by
  rw [Bits.eval_sign_eq hx.ne_nil, hx.denote]

end Denotes

end Circuit

end IntCircuit
