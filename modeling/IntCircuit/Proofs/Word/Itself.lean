import IntCircuit.Proofs.Circuit.Opposite
import IntCircuit.Proofs.Word.Outcome
import Mathlib.Data.List.Forall2

/-!
# A word and itself

Comparing a word with itself, or joining it with its complement, makes constants at once, whatever
nodes the bits are: at every position a node meets itself or its negation. A difference goes through
a chain of full adders, each of which adds a node, its negation and a carry and hands the carry on.
It makes constants only if gates are shared, as the negation of a bit that is a negation has to be
undone.

## Main definitions

* `Work.Returns`: an operation that returns this very result

## Main results

* `Junction.ensures_feed_identity`, `Bits.ensures_leBelow_self`: tests that all are true
* `Bits.ensures_eq_self`, `Bits.ensures_le_self`, `Bits.ensures_lt_self`: comparisons
* `Bits.ensures_ripple_self`: the chain of full adders, by its carry
* `Word.meets_itself`: what a word makes of itself
-/

namespace IntCircuit

open Build

variable {c : Circuit}

/-! ## Lists -/

theorem eq_replicate_of_forall₂ {α β : Type} {b : β} {items : List α} {results : List β}
    (h : List.Forall₂ (fun _ r => r = b) items results) :
    results = List.replicate items.length b := by
  induction h with
  | nil => rfl
  | cons hfirst _ ih => rw [hfirst, ih, List.length_cons, List.replicate_succ]

namespace Build.Ensures

variable {α : Type} {m : Build α} {post other : α → Circuit → Prop}

protected theorem and (h : Ensures c m post) (k : Ensures c m other) :
    Ensures c m fun a d => post a d ∧ other a d :=
  fun hl => ⟨(h hl).1, (h hl).2.1, (h hl).2.2, (k hl).2.2⟩

/-- A computation for each item of a list, whose results are related to the items. -/
theorem mapM_forall₂ {R : α → Node → Prop} {items : List α} {make : α → Build Node}
    [∀ a, Grows (make a)] (hc : c.Sound)
    (h : ∀ a ∈ items, ∀ d, c ≤ d → d.Sound → Ensures d (make a) fun n _ => R a n) :
    Ensures c (items.mapM make) fun nodes _ => List.Forall₂ R items nodes := by
  induction items generalizing c with
  | nil =>
    rw [List.mapM_nil]
    exact .pure hc .nil
  | cons a rest ih =>
    rw [List.mapM_cons]
    refine (h a List.mem_cons_self c (le_refl c) hc).bind fun n d hcd hd hn => ?_
    refine (ih hd fun b hb e hde => h b (List.mem_cons_of_mem a hb) e (hcd.trans hde)).bind
      fun nodes e _ he hnodes => ?_
    exact .pure he (.cons hn hnodes)

end Build.Ensures

/-! ## Junctions -/

namespace Junction

theorem add_identity (op : Connective) : (empty op).add (.const op.identity) = empty op := by
  cases op <;> rfl

theorem accumulate_empty (op : Connective) :
    Build.accumulate (empty op) = pure (.const op.identity) := by
  cases op <;> rfl

/-- A junction keeps nothing of constants that it ignores. -/
theorem ensures_feed_identity {α : Type} (op : Connective) {make : α → Build Node}
    [∀ a, Grows (make a)] {items : List α} (hc : c.Sound)
    (hmake : ∀ a ∈ items, ∀ d, c ≤ d → d.Sound →
      Ensures d (make a) fun n _ => n = .const op.identity) :
    Ensures c (feed make (empty op) items) fun j _ => j = empty op := by
  induction items generalizing c with
  | nil =>
    rw [feed]
    exact .pure hc rfl
  | cons a rest ih =>
    have hgrows (n : Node) : Grows (if ((empty op).add n).isDecided then pure ((empty op).add n)
        else feed make ((empty op).add n) rest) := by
      split <;> infer_instance
    rw [feed]
    refine (hmake a List.mem_cons_self c (le_refl c) hc).bind fun n d hcd hd hn => ?_
    rw [hn, add_identity]
    exact ih hd fun b hb e hde => hmake b (List.mem_cons_of_mem a hb) e (hcd.trans hde)

end Junction

/-! ## Bits -/

namespace Bits

variable {x y : Bits}

/-- Bits beside themselves, at any width. -/
theorem exists_of_mem_align_self (hx : ∀ n ∈ x, c.Owns n) {width : Nat} {p : Node × Node}
    (hp : p ∈ align width x x) : ∃ n, c.Owns n ∧ p = (n, n) := by
  rw [align, List.zip, List.zipWith_self] at hp
  obtain ⟨n, hn, rfl⟩ := List.mem_map.mp hp
  exact ⟨n, Circuit.owns_extend hx width n hn, rfl⟩

theorem length_align (width : Nat) (hx : x.length ≤ width) (hy : y.length ≤ width) :
    (align width x y).length = width := by
  rw [align, List.length_zip, length_extend_of_le hx, length_extend_of_le hy, Nat.min_self]

/-- **Equality** of bits with themselves. -/
theorem ensures_eq_self (hc : c.Sound) (hx : ∀ n ∈ x, c.Owns n) :
    Ensures c (eq x x) fun n _ => n = .const true := by
  refine (Junction.ensures_feed_identity .and hc fun p hp d hcd hd => ?_).bind
    fun j d _ hd hj => ?_
  · obtain ⟨n, hn, rfl⟩ := exists_of_mem_align_self hx hp
    exact ensures_iff_self hd (hn.mono hcd)
  · rw [hj, Junction.accumulate_empty]
    exact .pure hd rfl

theorem ensures_ne_self (hc : c.Sound) (hx : ∀ n ∈ x, c.Owns n) :
    Ensures c (ne x x) fun n _ => n = .const false := by
  refine (ensures_eq_self hc hx).bind fun n d _ hd hn => ?_
  rw [hn]
  exact .pure hd rfl

/-- Every test of bits with themselves is true, and so is that all above agree. -/
theorem ensures_leBelow_self {pairs : List (Node × Node)} (hc : c.Sound)
    (h : ∀ p ∈ pairs, ∃ n, c.Owns n ∧ p = (n, n)) :
    Ensures c (leBelow (.empty .and) (.const true) pairs) fun j _ => j = .empty .and := by
  induction pairs generalizing c with
  | nil =>
    rw [leBelow]
    exact .pure hc rfl
  | cons p rest ih =>
    obtain ⟨⟨a, ha, rfl⟩, hrest⟩ := List.forall_mem_cons.mp h
    have hgrows (test : Node) : Grows (if ((Junction.empty .and).add test).isDecided then
        pure ((Junction.empty .and).add test) else do
          leBelow ((Junction.empty .and).add test)
            (← Build.and (.const true) (← Build.iff a a)) rest) := by
      split <;> infer_instance
    rw [leBelow]
    refine (ensures_implies_self hc ha).bind fun r d hcd hd hr => ?_
    -- an implication between true constants is one
    have htest : Build.implies (.const true) r = pure (.const true) := by
      rw [hr]
      rfl
    rw [htest, pure_bind]
    refine (ensures_iff_self hd (ha.mono hcd)).bind fun same e hde he hsame => ?_
    have hnext : Build.and (.const true) same = pure (.const true) := by
      rw [hsame]
      rfl
    rw [hnext, pure_bind]
    refine ih he fun q hq => ?_
    obtain ⟨n, hn, rfl⟩ := hrest q hq
    exact ⟨n, hn.mono (hcd.trans hde), rfl⟩

/-- **The order** of bits and themselves. -/
theorem ensures_le_self (hc : c.Sound) (hx : ∀ n ∈ x, c.Owns n) :
    Ensures c (le x x) fun n _ => n = .const true := by
  have hlast := Circuit.owns_bit hx (maxWidth x x - 1)
  unfold le
  refine (ensures_implies_self hc hlast).bind fun sign d hcd hd hsign => ?_
  refine (ensures_iff_self hd (hlast.mono hcd)).bind fun agree e hde he hagree => ?_
  rw [hsign, hagree]
  refine (ensures_leBelow_self he fun p hp => ?_).bind fun j f _ hf hj => ?_
  · have hp' := List.mem_of_mem_take (List.mem_reverse.mp hp)
    obtain ⟨n, hn, rfl⟩ := exists_of_mem_align_self hx hp'
    exact ⟨n, hn.mono (hcd.trans hde), rfl⟩
  · rw [hj, Junction.accumulate_empty]
    exact .pure hf rfl

theorem ensures_lt_self (hc : c.Sound) (hx : ∀ n ∈ x, c.Owns n) :
    Ensures c (lt x x) fun n _ => n = .const false := by
  refine (ensures_le_self hc hx).bind fun atMost d hcd hd hle => ?_
  refine (Junction.ensures_feed_identity .or hd fun p hp e hde he => ?_).bind
    fun j e _ he hj => ?_
  · obtain ⟨n, hn, rfl⟩ := exists_of_mem_align_self hx hp
    exact Build.ensures_xor_self he (hn.mono (hcd.trans hde))
  · rw [hj, Junction.accumulate_empty, pure_bind, hle]
    exact .pure he rfl

/-- One constant at every position. -/
theorem ensures_zipWith_const {gate : Node → Node → Build Node} [∀ a b, Grows (gate a b)]
    {value : Bool} (hc : c.Sound)
    (h : ∀ p ∈ align (maxWidth x y) x y, ∀ d, c ≤ d → d.Sound →
      Ensures d (gate p.1 p.2) fun n _ => n = .const value) :
    Ensures c (zipWith gate x y) fun z _ => z = List.replicate (maxWidth x y) (.const value) := by
  refine (Ensures.mapM_forall₂ (R := fun _ n => n = .const value) hc h).mono
    fun z d _ _ hz => ?_
  have hlength := length_align (maxWidth x y) (Nat.le_max_left x.length _) (Nat.le_max_right _ _)
  rw [eq_replicate_of_forall₂ hz, hlength]

theorem ensures_xor_self (hc : c.Sound) (hx : ∀ n ∈ x, c.Owns n) :
    Ensures c (xor x x) fun z _ => z = List.replicate x.length (.const false) := by
  have hwidth : maxWidth x x = x.length := Nat.max_self _
  rw [← hwidth]
  refine ensures_zipWith_const hc fun p hp d hcd hd => ?_
  obtain ⟨n, hn, rfl⟩ := exists_of_mem_align_self hx hp
  exact Build.ensures_xor_self hd (hn.mono hcd)

/-- A complement is opposite to the bits at every position. -/
theorem ensures_not_opposite (hc : c.Sound) (hx : ∀ n ∈ x, c.Owns n) :
    Ensures c (not x) fun z _ => List.Forall₂ Node.Opposite x z :=
  Ensures.mapM_forall₂ hc fun a ha _ hcd hd =>
    (ensures_opposite hd ((hx a ha).mono hcd)).mono fun _ _ _ _ hb => hb.2

/-- A connective of bits and their complement settles every position. -/
theorem ensures_zipWith_opposite (op : Connective) (hc : c.Sound) (hx : ∀ n ∈ x, c.Owns n)
    (hy : ∀ n ∈ y, c.Owns n) (h : List.Forall₂ Node.Opposite x y) :
    Ensures c (zipWith (fun a b => nary op [a, b]) x y) fun z _ =>
      z = List.replicate x.length (.const op.absorbing) := by
  have hwidth : maxWidth x y = x.length := by rw [maxWidth, ← h.length_eq, Nat.max_self]
  have hsame : align (maxWidth x y) x y = x.zip y := by
    rw [align, hwidth, extend_length, h.length_eq, extend_length]
  rw [← hwidth]
  refine ensures_zipWith_const hc fun p hp d hcd hd => ?_
  rw [hsame] at hp
  have hmem := List.of_mem_zip hp
  rw [nary_opposite hd op ((hx _ hmem.1).mono hcd) ((hy _ hmem.2).mono hcd)
    ((List.forall₂_iff_zip.mp h).2 hp)]
  exact .pure hd rfl

/-- **The carry goes through** when the complement of bits is added to them, and one. -/
theorem ensures_ripple_self (hs : c.sharing = true) (hc : c.Sound) {pairs : List (Node × Node)}
    (h : ∀ p ∈ pairs, ∃ n, c.Owns n ∧ p = (n, n)) :
    Ensures c (ripple Build.not pairs (.const true)) fun z _ =>
      z = List.replicate pairs.length (.const false) := by
  induction pairs generalizing c with
  | nil =>
    rw [ripple]
    exact .pure hc rfl
  | cons p rest ih =>
    obtain ⟨⟨a, ha, rfl⟩, hrest⟩ := List.forall_mem_cons.mp h
    rw [ripple]
    refine (ensures_opposite hc ha).bind fun r d hcd hd ⟨hr, hopp⟩ => ?_
    refine (ensures_sum_opposite (hcd.sharing.trans hs) hd (ha.mono hcd) hr hopp).bind
      fun sum e hde he hsum => ?_
    have hce : c ≤ e := hcd.trans hde
    refine (ensures_carry_opposite (hce.sharing.trans hs) he (ha.mono hce) (hr.mono hde)
      hopp).bind fun carry f hef hf hcarry => ?_
    have hcf : c ≤ f := hce.trans hef
    rw [hcarry]
    refine (ih (hcf.sharing.trans hs) hf fun q hq => ?_).bind fun z g _ hg hz => ?_
    · obtain ⟨n, hn, rfl⟩ := hrest q hq
      exact ⟨n, hn.mono hcf, rfl⟩
    · rw [hsum, hz]
      exact .pure hg rfl

/-- **The difference** of bits and themselves, if gates are shared. -/
theorem ensures_sub_self (hs : c.sharing = true) (hc : c.Sound) (hx : ∀ n ∈ x, c.Owns n)
    (hle : x.length ≤ c.bitwidth) :
    Ensures c (sub x x) fun z _ =>
      z = List.replicate (min (x.length + 1) c.bitwidth) (.const false) := by
  have hwidth : sumWidth c.bitwidth x x = min (x.length + 1) c.bitwidth := by
    rw [sumWidth, maxWidth, Nat.max_self]
  have hlength : x.length ≤ min (x.length + 1) c.bitwidth := Nat.le_min.mpr ⟨Nat.le_succ _, hle⟩
  apply Ensures.get_bind
  rw [hwidth]
  refine (ensures_ripple_self hs hc fun p => exists_of_mem_align_self hx).mono fun z d _ _ hz => ?_
  rw [hz, length_align _ hlength hlength]

end Bits

/-! ## Words -/

namespace Work

/-- The operation returns this very result, unless the count of labels comes round. -/
def Returns {α : Type} (m : Work α) (w : Workspace) (c : Circuit) (result : α) : Prop :=
  ∃ a w₁ d, m.Leads w c a w₁ d ∧ (d.maxLabel + 1 < labelModulus → a = result)

variable {w : Workspace}

theorem Ensures.returns {α : Type} {m : Work α} {always : α → Prop} {a : α}
    (h : Ensures c.id c m always c.Sound fun b _ => b = a) (hw : w.Holds c) :
    m.Returns w c a := by
  obtain ⟨b, w₁, d, hlead, -, hb⟩ := h.leads hw
  exact ⟨b, w₁, d, hlead, hb⟩

/-- A word is its circuit and its bits. -/
theorem Ensures.returns_word {m : Work Word} {bits : Bits}
    (h : Ensures c.id c m (fun z => z.owner = c.id) c.Sound fun z _ => z.bits = bits)
    (hw : w.Holds c) : m.Returns w c ⟨c.id, bits⟩ := by
  obtain ⟨z, w₁, d, hlead, howner, hz⟩ := h.leads hw
  refine ⟨z, w₁, d, hlead, fun hl => ?_⟩
  rw [← howner, ← hz hl]

end Work

namespace Word

variable {w : Workspace} {x : Word}

/-- Every relation of a word to itself is the one of an integer to itself. -/
theorem ensures_relation_self (op : Relation) (hx : c.HasWord x) :
    Work.Ensures c.id c (op.run x x) (fun _ => True) c.Sound
      fun n _ => n = .const (op.holds 0 0) := by
  have howns (hc : c.Sound) : c.Sound ∧ c.OwnsWord x ∧ c.OwnsWord x := ⟨hc, hx.owns, hx.owns⟩
  cases op with
  | eq =>
    exact ensures_relation hx.owner hx.owner howns
      fun d hd hxd _ => Bits.ensures_eq_self hd hxd.owns
  | ne =>
    exact ensures_relation hx.owner hx.owner howns
      fun d hd hxd _ => Bits.ensures_ne_self hd hxd.owns
  | lt =>
    exact ensures_relation hx.owner hx.owner howns
      fun d hd hxd _ => Bits.ensures_lt_self hd hxd.owns
  | le =>
    exact ensures_relation hx.owner hx.owner howns
      fun d hd hxd _ => Bits.ensures_le_self hd hxd.owns
  | gt =>
    exact ensures_relation hx.owner hx.owner howns
      fun d hd hxd _ => Bits.ensures_lt_self hd hxd.owns
  | ge =>
    exact ensures_relation hx.owner hx.owner howns
      fun d hd hxd _ => Bits.ensures_le_self hd hxd.owns

/-- A connective of a word and its complement. -/
theorem ensures_opposite (op : Connective) {gates : Bits → Bits → Build Bits}
    [∀ x y, Grows (gates x y)] (hx : c.HasWord x)
    (hgates : ∀ x y, gates x y = Bits.zipWith (fun a b => nary op [a, b]) x y) :
    Work.Ensures c.id c (do binary gates x (← not x)) (fun z => z.owner = c.id) c.Sound
      fun z _ => z.bits = List.replicate x.width (.const op.absorbing) := by
  have hnot : Work.Ensures c.id c (not x) (fun y => y.owner = c.id) c.Sound fun y d =>
      (d.Denotes y.bits fun σ => Int.lnot (x.denote σ)) ∧
        List.Forall₂ Node.Opposite x.bits y.bits :=
    ensures_unary hx.owner fun hc =>
      (Bits.ensures_not hc hx.owns).and (Bits.ensures_not_opposite hc hx.owns.owns)
  refine hnot.bind fun y d hcd hy => ?_
  have hjoin (hopp : List.Forall₂ Node.Opposite x.bits y.bits) (e : Circuit) (he : e.Sound)
      (hxe : ∀ n ∈ x.bits, e.Owns n) (hye : ∀ n ∈ y.bits, e.Owns n) :
      Ensures e (gates x.bits y.bits) fun z _ =>
        z = List.replicate x.width (.const op.absorbing) := by
    rw [hgates]
    exact Bits.ensures_zipWith_opposite op he hxe hye hopp
  exact ensures_binary hx.owner hy (fun h => ⟨h.2.1, hx.owns.mono hcd, h.2.2.1⟩)
    fun h e _ he hxe hye => hjoin h.2.2.2 e he hxe.owns hye.owns

/-- **A word and itself** make constants at once: comparisons, the exclusive disjunction, and the
connectives of the word and its complement. If gates are shared, so does the difference. -/
theorem meets_itself (hw : w.Holds c) (hx : c.HasWord x) :
    (∀ op ∈ [Relation.eq, .le, .ge], (op.run x x).Returns w c (.const true)) ∧
    (∀ op ∈ [Relation.ne, .lt, .gt], (op.run x x).Returns w c (.const false)) ∧
    ((xor x x).Returns w c ⟨c.id, List.replicate x.width (.const false)⟩) ∧
    ((do and x (← not x)).Returns w c ⟨c.id, List.replicate x.width (.const false)⟩) ∧
    ((do or x (← not x)).Returns w c ⟨c.id, List.replicate x.width (.const true)⟩) ∧
    (c.sharing = true → (sub x x).Returns w c
      ⟨c.id, List.replicate (min (x.width + 1) c.bitwidth) (.const false)⟩) := by
  have howns (hc : c.Sound) : c.Sound ∧ c.OwnsWord x ∧ c.OwnsWord x := ⟨hc, hx.owns, hx.owns⟩
  have hrelation (op : Relation) : (op.run x x).Returns w c (.const (op.holds 0 0)) :=
    (ensures_relation_self op hx).returns hw
  refine ⟨fun op hop => ?_, fun op hop => ?_, ?_, ?_, ?_, fun hs => ?_⟩
  · simp only [List.mem_cons, List.not_mem_nil, or_false] at hop
    rcases hop with rfl | rfl | rfl
    · exact hrelation .eq
    · exact hrelation .le
    · exact hrelation .ge
  · simp only [List.mem_cons, List.not_mem_nil, or_false] at hop
    rcases hop with rfl | rfl | rfl
    · exact hrelation .ne
    · exact hrelation .lt
    · exact hrelation .gt
  · exact (ensures_binary hx.owner hx.owner howns
      fun _ d _ hd hxd _ => Bits.ensures_xor_self hd hxd.owns).returns_word hw
  · exact (ensures_opposite .and hx fun _ _ => rfl).returns_word hw
  · exact (ensures_opposite .or hx fun _ _ => rfl).returns_word hw
  · have hsub (d : Circuit) (hcd : c ≤ d) (hd : d.Sound) (hxd : d.OwnsWord x) :
        Ensures d (Bits.sub x.bits x.bits) fun z _ =>
          z = List.replicate (min (x.width + 1) c.bitwidth) (.const false) := by
      rw [← hcd.bitwidth]
      exact Bits.ensures_sub_self (hcd.sharing.trans hs) hd hxd.owns hxd.width_le
    exact (ensures_binary hx.owner hx.owner howns
      fun _ d hcd hd hxd _ => hsub d hcd hd hxd).returns_word hw

/-- Two variables and their complement have no bit in common. -/
theorem meets_itself_on_two_variables :
    ∃ w₀ w₁, Runs (Work.create 2 ⟨3, false⟩) {} 0 w₀ ∧
      Runs (do and ⟨0, [.var 1, .var 2]⟩ (← not ⟨0, [.var 1, .var 2]⟩)) w₀
        (⟨0, [.const false, .const false]⟩ : Word) w₁ := by
  let start : Workspace := ((Work.create 2 ⟨3, false⟩).run.run {}).2
  have hcreate : Runs (Work.create 2 ⟨3, false⟩) {} 0 start := rfl
  obtain ⟨c, hw, hid, -, hwords⟩ := Work.holds_of_runs_create hcreate
  have hx : c.HasWord ⟨0, [.var 1, .var 2]⟩ := hwords 1 3 (by decide)
  obtain ⟨-, -, -, ⟨z, w₁, d, hand, hz⟩, -⟩ := meets_itself hw hx
  have hl : d.maxLabel + 1 < labelModulus := hand.maxLabel_lt (by rw [hid]; decide +kernel)
  have hruns := hand.runs
  rw [hz hl, hid] at hruns
  exact ⟨start, w₁, hcreate, hruns⟩

end Word

end IntCircuit
