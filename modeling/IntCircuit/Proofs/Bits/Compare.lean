import IntCircuit.Bits.Compare
import IntCircuit.Proofs.Bits.Logic

/-!
# Comparisons compare

The order of two integers is settled at their signs or, where these agree, by the highest position
at which the rest differs. A comparison that stops early has met a test that fails under every
assignment.

## Main definitions

* `orderTests`: what must hold from the highest bit down for one number to be at most another

## Main results

* `all_orderTests`: the tests together are the order of two numbers
* `decode_le_decode`: the order of two integers by signs and numbers
* `Bits.ensures_eq`, `Bits.ensures_ne`, `Bits.ensures_le`, `Bits.ensures_lt`
-/

namespace IntCircuit

/-! ## Lists of bits -/

/-- The tests of two numbers from the highest bit down. Each is about a position of which `agree`
tells whether all higher ones agree. -/
def orderTests : Bool → List (Bool × Bool) → List Bool
  | _, [] => []
  | agree, (a, b) :: rest => (!agree || (!a || b)) :: orderTests (agree && (a == b)) rest

/-- **The tests together** are the order of two numbers, unless higher positions differ. -/
theorem all_orderTests (agree : Bool) (pairs : List (Bool × Bool)) :
    (orderTests agree pairs).all id = (!agree || decide (unsigned (pairs.map Prod.fst).reverse ≤
      unsigned (pairs.map Prod.snd).reverse)) := by
  induction pairs generalizing agree with
  | nil => cases agree <;> rfl
  | cons p rest ih =>
    obtain ⟨a, b⟩ := p
    have hfirst := unsigned_lt (rest.map Prod.fst).reverse
    have hsecond := unsigned_lt (rest.map Prod.snd).reverse
    have hfirst' := unsigned_nonneg (rest.map Prod.fst).reverse
    have hsecond' := unsigned_nonneg (rest.map Prod.snd).reverse
    rw [List.length_reverse, List.length_map] at hfirst hsecond
    rw [orderTests, List.all_cons, ih, List.map_cons, List.map_cons, List.reverse_cons,
      List.reverse_cons, unsigned_append, unsigned_append, List.length_reverse,
      List.length_reverse, List.length_map, List.length_map]
    -- a higher bit outweighs all lower ones
    cases agree <;> cases a <;> cases b <;> simp <;> linarith

/-- **The order of two integers** by their signs and, where these agree, by the numbers below. -/
theorem decode_le_decode {low other : List Bool} (hlength : low.length = other.length)
    (sign sign' : Bool) :
    decode (low ++ [sign]) ≤ decode (other ++ [sign']) ↔
      (sign' = true → sign = true) ∧ (sign = sign' → unsigned low ≤ unsigned other) := by
  have hlow := unsigned_lt low
  have hother := unsigned_lt other
  have hlow' := unsigned_nonneg low
  have hother' := unsigned_nonneg other
  rw [hlength] at hlow
  rw [decode_append_singleton, decode_append_singleton, hlength]
  -- a sign outweighs all bits below it
  cases sign <;> cases sign' <;> simp <;> linarith

theorem all_zipWith_beq {values others : List Bool} (hlength : values.length = others.length) :
    (List.zipWith (· == ·) values others).all id = decide (values = others) := by
  induction values generalizing others with
  | nil => rw [List.eq_nil_of_length_eq_zero hlength.symm]; rfl
  | cons a rest ih =>
    cases others with
    | nil => cases hlength
    | cons b tail =>
      rw [List.zipWith_cons_cons, List.all_cons, ih (by simpa using hlength)]
      cases a <;> cases b <;> simp

theorem any_zipWith_xor {values others : List Bool} (hlength : values.length = others.length) :
    (List.zipWith (· ^^ ·) values others).any id = decide (values ≠ others) := by
  induction values generalizing others with
  | nil => rw [List.eq_nil_of_length_eq_zero hlength.symm]; rfl
  | cons a rest ih =>
    cases others with
    | nil => cases hlength
    | cons b tail =>
      rw [List.zipWith_cons_cons, List.any_cons, ih (by simpa using hlength)]
      cases a <;> cases b <;> simp

/-! ## Circuits -/

namespace Bits

open Build

variable {c d : Circuit} {x y : Bits} {m n : (Nat → Bool) → Int}

instance (x y : Bits) : Grows (eq x y) := by
  rw [eq]
  infer_instance

instance (x y : Bits) : Grows (ne x y) := by
  rw [ne]
  infer_instance

theorem aligned_inj (hx : c.Denotes x m) (hy : c.Denotes y n) (σ : Nat → Bool) :
    (aligned σ x y).1 = (aligned σ x y).2 ↔ m σ = n σ := by
  rw [← decode_aligned_fst hx y σ, ← decode_aligned_snd hy x σ]
  constructor
  · exact congrArg decode
  · exact decode_inj (by rw [length_aligned_fst, length_aligned_snd])

/-- **Equality.** -/
theorem ensures_eq (hc : c.Sound) (hx : c.Denotes x m) (hy : c.Denotes y n) :
    Ensures c (eq x y) fun r d => d.Reads r fun σ => decide (m σ = n σ) := by
  have hown := owns_align hx.owns hy.owns (maxWidth x y)
  refine (Junction.ensures_feed (fun σ p => p.1.eval σ == p.2.eval σ) hc
    (fun p hp d hcd hd => Build.ensures_iff hd ((hown p hp).1.mono hcd) ((hown p hp).2.mono hcd))
    (.empty c .and)).bind fun j d hcd hd hj => ?_
  apply (ensures_accumulate hd hj).reads_congr
  intro σ
  rw [List.nil_append, map_align (· == ·), Connective.join,
    all_zipWith_beq (by rw [length_aligned_fst, length_aligned_snd])]
  simp only [aligned_inj hx hy]

theorem ensures_ne (hc : c.Sound) (hx : c.Denotes x m) (hy : c.Denotes y n) :
    Ensures c (ne x y) fun r d => d.Reads r fun σ => decide (m σ ≠ n σ) := by
  refine (ensures_eq hc hx hy).bind fun r d _ hd hr => ?_
  apply (Build.ensures_not hd hr.owns).reads_congr
  intro σ
  rw [hr.eval, decide_not]

instance (j : Junction) (agree : Node) (pairs : List (Node × Node)) :
    Grows (leBelow j agree pairs) := by
  induction pairs generalizing j agree with
  | nil => rw [leBelow]; infer_instance
  | cons p rest ih =>
    have hrest (test : Node) : Grows (if (j.add test).isDecided then pure (j.add test)
        else do leBelow (j.add test) (← Build.and agree (← Build.iff p.1 p.2)) rest) := by
      split <;> infer_instance
    rw [leBelow]
    infer_instance

instance (x y : Bits) : Grows (le x y) := by
  rw [le]
  infer_instance

instance (x y : Bits) : Grows (lt x y) := by
  rw [lt]
  infer_instance

/-- The tests below the sign, up to one that fails under every assignment. -/
theorem ensures_leBelow (hc : c.Sound) {j : Junction} {values : (Nat → Bool) → List Bool}
    (hj : j.Reads c .and values) {agree : Node} (hagree : c.Owns agree)
    {pairs : List (Node × Node)} (hown : ∀ p ∈ pairs, c.Owns p.1 ∧ c.Owns p.2) :
    Ensures c (leBelow j agree pairs) fun k d => k.Reads d .and fun σ =>
      values σ ++ orderTests (agree.eval σ) (pairs.map fun p => (p.1.eval σ, p.2.eval σ)) := by
  induction pairs generalizing c j values agree with
  | nil =>
    rw [leBelow]
    exact .pure hc (by simpa [orderTests] using hj)
  | cons p rest ih =>
    obtain ⟨a, b⟩ := p
    obtain ⟨ha, hb⟩ := hown (a, b) List.mem_cons_self
    have hgrows (test : Node) : Grows (if (j.add test).isDecided then pure (j.add test)
        else do leBelow (j.add test) (← Build.and agree (← Build.iff a b)) rest) := by
      split <;> infer_instance
    rw [leBelow]
    refine (Build.ensures_implies hc ha hb).bind fun r d hcd hd hr => ?_
    refine (Build.ensures_implies hd (hagree.mono hcd) hr.owns).bind fun test e hde he htest => ?_
    have hce : c ≤ e := hcd.trans hde
    have hadd := (hj.mono hce).add (htest.congr (g := fun σ =>
      !agree.eval σ || (!a.eval σ || b.eval σ)) fun σ => by rw [hr.eval])
    dsimp only
    split
    next hdecided =>
      -- the test fails under every assignment, and the others are not made
      refine .pure he ?_
      simpa [orderTests] using hadd.append_of_decided hdecided fun σ =>
        orderTests (agree.eval σ && (a.eval σ == b.eval σ))
          (rest.map fun p => (p.1.eval σ, p.2.eval σ))
    next =>
      refine (Build.ensures_iff he (ha.mono hce) (hb.mono hce)).bind fun same f hef hf hsame => ?_
      refine (Build.ensures_and hf (hagree.mono (hce.trans hef)) hsame.owns).bind
        fun next g hfg hg hnext => ?_
      have hcg : c ≤ g := hce.trans (hef.trans hfg)
      refine (ih hg (hadd.mono (hef.trans hfg)) hnext.owns fun q hq =>
        ⟨(hown q (List.mem_cons_of_mem _ hq)).1.mono hcg,
          (hown q (List.mem_cons_of_mem _ hq)).2.mono hcg⟩).mono fun k h _ _ hk => ?_
      simpa [orderTests, hnext.eval, hsame.eval] using hk

/-- The bits of two integers below the position of their common sign. -/
theorem take_align {last : Nat} (hx : x.length ≤ last + 1) (hy : y.length ≤ last + 1) :
    (align (last + 1) x y).take last =
      ((List.range last).map x.bit).zip ((List.range last).map y.bit) := by
  rw [align, extend_succ hx, extend_succ hy, List.zip_append (by simp), List.take_left' (by simp)]

/-- The values of pairs from the highest bit down, as two numbers. -/
theorem map_values_reverse (σ : Nat → Bool) (xs ys : List Node) (h : xs.length = ys.length) :
    let values := (xs.zip ys).reverse.map fun p => (p.1.eval σ, p.2.eval σ)
    (values.map Prod.fst).reverse = xs.map (Node.eval σ) ∧
      (values.map Prod.snd).reverse = ys.map (Node.eval σ) := by
  intro values
  have hfst : values.map Prod.fst = (((xs.zip ys).map Prod.fst).map (Node.eval σ)).reverse := by
    simp [values, Function.comp_def]
  have hsnd : values.map Prod.snd = (((xs.zip ys).map Prod.snd).map (Node.eval σ)).reverse := by
    simp [values, Function.comp_def]
  rw [hfst, hsnd, List.reverse_reverse, List.reverse_reverse, List.map_fst_zip h.le,
    List.map_snd_zip h.ge]
  exact ⟨rfl, rfl⟩

/-- **At most**, for signed integers. -/
theorem ensures_le (hc : c.Sound) (hx : c.Denotes x m) (hy : c.Denotes y n) :
    Ensures c (le x y) fun r d => d.Reads r fun σ => decide (m σ ≤ n σ) := by
  obtain ⟨last, hlast⟩ : ∃ last, maxWidth x y = last + 1 :=
    ⟨maxWidth x y - 1, by have := hx.width_pos; rw [maxWidth]; omega⟩
  have hxle : x.length ≤ last + 1 := hlast ▸ Nat.le_max_left _ _
  have hyle : y.length ≤ last + 1 := hlast ▸ Nat.le_max_right _ _
  have hxlast := Circuit.owns_bit hx.owns last
  have hylast := Circuit.owns_bit hy.owns last
  unfold le
  rw [hlast, Nat.add_sub_cancel]
  refine (Build.ensures_implies hc hylast hxlast).bind fun sign d hcd hd hsign => ?_
  refine (Build.ensures_iff hd (hxlast.mono hcd) (hylast.mono hcd)).bind
    fun agree e hde he hagree => ?_
  have hce : c ≤ e := hcd.trans hde
  refine (ensures_leBelow he (((Junction.Reads.empty d .and).add hsign).mono hde) hagree.owns
    fun p hp => ?_).bind fun j f hef hf hj => ?_
  · have hp' := List.mem_of_mem_take (List.mem_reverse.mp hp)
    have hown := owns_align hx.owns hy.owns (last + 1) p hp'
    exact ⟨hown.1.mono hce, hown.2.mono hce⟩
  apply (ensures_accumulate hf hj).reads_congr
  intro σ
  -- the sign stands apart from the bits below it
  have hm := hx.decode_extend (last + 1) σ
  have hn := hy.decode_extend (last + 1) σ
  rw [extend_succ hxle, List.map_append, List.map_singleton] at hm
  rw [extend_succ hyle, List.map_append, List.map_singleton] at hn
  obtain ⟨hfst, hsnd⟩ := map_values_reverse σ ((List.range last).map x.bit)
    ((List.range last).map y.bit) (by simp)
  rw [← hm, ← hn, take_align hxle hyle, hagree.eval, Connective.join, List.all_append,
    all_orderTests, hfst, hsnd, Bool.eq_iff_iff, decide_eq_true_iff, decode_le_decode (by simp)]
  cases (x.bit last).eval σ <;> cases (y.bit last).eval σ <;> simp

/-- **Less than**, for signed integers. -/
theorem ensures_lt (hc : c.Sound) (hx : c.Denotes x m) (hy : c.Denotes y n) :
    Ensures c (lt x y) fun r d => d.Reads r fun σ => decide (m σ < n σ) := by
  -- at most, and different
  refine (ensures_le hc hx hy).bind fun atMost d hcd hd hle => ?_
  have hown := owns_align hx.owns hy.owns (maxWidth x y)
  refine (Junction.ensures_feed (fun σ p => p.1.eval σ ^^ p.2.eval σ) hd
    (fun p hp e hde he => Build.ensures_xor he ((hown p hp).1.mono (hcd.trans hde))
      ((hown p hp).2.mono (hcd.trans hde))) (.empty d .or)).bind fun j e hde he hj => ?_
  refine (ensures_accumulate he hj).bind fun differ f hef hf hdiffer => ?_
  apply (Build.ensures_and hf (hle.owns.mono (hde.trans hef)) hdiffer.owns).reads_congr
  intro σ
  rw [hle.eval, hdiffer.eval, List.nil_append, map_align (· ^^ ·), Connective.join,
    any_zipWith_xor (by rw [length_aligned_fst, length_aligned_snd]), ← Bool.decide_and]
  simp only [ne_eq, aligned_inj hx hy, lt_iff_le_and_ne]

end Bits

end IntCircuit
