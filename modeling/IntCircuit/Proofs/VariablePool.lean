import IntCircuit.Proofs.Word.Basic
import IntCircuit.VariablePool
import Mathlib.Data.List.Nodup
import Mathlib.Data.List.Range
import Std.Data.TreeMap.Lemmas

/-!
# The labels of named integers

A pool lays the labels of named integers out one after another from 1 on, and a circuit with that
many variables has a word for each of them. Labels are numbers of 32 bits and widths are not: as
soon as the widths come to more than there are labels, some integer has other labels than it needs,
or none at all.

## Main definitions

* `Allotment`: an integer with the labels that it was given
* `VariablePool.Allots`: the pools that calls lead to, with what they have allotted

## Main results

* `VariablePool.Allots.inv`: what calls preserve, whatever the widths are
* `VariablePool.Allots.flatMap_labels`: all labels together
* `VariablePool.Allots.count_lt_iff`: labels are laid out one after another until they run out, and
  no longer
-/

namespace IntCircuit

/-- The labels of a range in ascending order. -/
def LabelRange.labels (r : LabelRange) : List Nat :=
  List.range' r.start (r.stop - r.start)

/-- A named integer with the labels that it was given. -/
structure Allotment where
  name : String
  width : Nat
  range : LabelRange

namespace Allotment

/-- The number of labels that integers need. -/
def count : List Allotment → Nat
  | [] => 0
  | a :: rest => a.width + count rest

@[simp] theorem count_append (log rest : List Allotment) :
    count (log ++ rest) = count log + count rest := by
  induction log with
  | nil => exact (Nat.zero_add _).symm
  | cons a log ih => rw [List.cons_append, count, count, ih, Nat.add_assoc]

@[simp] theorem count_singleton (a : Allotment) : count [a] = a.width := rfl

end Allotment

namespace VariablePool

open Allotment (count)

/-- The integers that have their labels, in the order of the calls, and the pool after them. A call
that is refused changes nothing. -/
inductive Allots : List Allotment → VariablePool → Prop
  | start : Allots [] {}
  | granted {log : List Allotment} {p q : VariablePool} {name : String} {width : Nat}
      {range : LabelRange} : Allots log p → p.allocate name width = .ok (range, q) →
      Allots (log ++ [⟨name, width, range⟩]) q
  | refused {log : List Allotment} {p : VariablePool} {name : String} {width : Nat}
      {fault : Fault} : Allots log p → p.allocate name width = .error fault → Allots log p

variable {log : List Allotment} {p q : VariablePool} {name : String} {width : Nat}
  {range : LabelRange}

/-! ## One call -/

/-- What a call gives unless it is refused. -/
theorem allocate_eq_ok :
    p.allocate name width = .ok (range, q) ↔ 0 < width ∧ p.range? name = none ∧
      range = ⟨p.next, (p.next + width) % labelModulus⟩ ∧
      q = ⟨range.stop, p.ranges.insert name range⟩ := by
  have hcontains : p.ranges.contains name = true ↔ p.range? name ≠ none := by
    rw [range?, Std.TreeMap.contains_eq_isSome_getElem?, Option.isSome_iff_ne_none]
  rw [allocate]
  split
  next hzero => simp [hzero]
  next hpos =>
    rw [and_iff_right (Nat.pos_of_ne_zero hpos)]
    split
    next htaken => simp [hcontains.mp htaken]
    next hfree =>
      have hnone : p.range? name = none := by simpa [hcontains] using hfree
      -- cutting the width to 32 bits first makes no difference to the sum
      rw [and_iff_right hnone, Nat.add_mod_mod, Except.ok.injEq, Prod.mk.injEq]
      constructor
      · rintro ⟨rfl, rfl⟩
        exact ⟨rfl, rfl⟩
      · rintro ⟨rfl, rfl⟩
        exact ⟨rfl, rfl⟩

theorem range?_insert (next : Nat) (name other : String) (range : LabelRange) :
    (⟨next, p.ranges.insert name range⟩ : VariablePool).range? other =
      if name = other then some range else p.range? other := by
  simp [range?, Std.TreeMap.getElem?_insert]

/-- What holds of a pool whatever the widths are. -/
structure Inv (log : List Allotment) (p : VariablePool) : Prop where
  width_pos : ∀ a ∈ log, 0 < a.width
  names : (log.map Allotment.name).Nodup
  found : ∀ a ∈ log, p.range? a.name = some a.range
  known : ∀ name range, p.range? name = some range → name ∈ log.map Allotment.name
  next : p.next = (1 + count log) % labelModulus

/-- **A call that is granted** keeps what was found before, for its name is new. -/
theorem Inv.allocate (h : Inv log p) (hgrant : p.allocate name width = .ok (range, q)) :
    Inv (log ++ [⟨name, width, range⟩]) q := by
  obtain ⟨hpos, hfree, hrange, rfl⟩ := allocate_eq_ok.mp hgrant
  have hnew : name ∉ log.map Allotment.name := by
    intro hmem
    obtain ⟨a, ha, rfl⟩ := List.mem_map.mp hmem
    rw [h.found a ha] at hfree
    cases hfree
  refine ⟨?_, ?_, ?_, ?_, ?_⟩
  · exact List.forall_mem_append.mpr ⟨h.width_pos, List.forall_mem_singleton.mpr hpos⟩
  · rw [List.map_append, List.nodup_append_comm]
    exact List.nodup_cons.mpr ⟨hnew, h.names⟩
  · intro a ha
    rw [range?_insert]
    rcases List.mem_append.mp ha with hold | hlast
    · rw [if_neg, h.found a hold]
      rintro rfl
      exact hnew (List.mem_map_of_mem hold)
    · rw [List.mem_singleton.mp hlast, if_pos rfl]
  · intro other r hother
    rw [range?_insert] at hother
    rw [List.map_append, List.mem_append]
    split at hother
    next heq => exact .inr (by simp [heq])
    next => exact .inl (h.known other r hother)
  · rw [hrange, h.next, Nat.mod_add_mod, Allotment.count_append, Allotment.count_singleton,
      Nat.add_assoc]

namespace Allots

/-! ## All calls -/

/-- **What calls preserve**, whatever the widths are. -/
theorem inv (h : Allots log p) : Inv log p := by
  induction h with
  | start => exact ⟨by simp, .nil, by simp, fun name range h => by simp [range?] at h, rfl⟩
  | granted _ hgrant ih => exact ih.allocate hgrant
  | refused _ _ ih => exact ih

/-- The labels of an integer start where those before it end, as far as 32 bits tell. -/
theorem range_eq (h : Allots log p) (i : Nat) (hi : i < log.length) :
    log[i].range = ⟨(1 + count (log.take i)) % labelModulus,
      (1 + count (log.take i) + log[i].width) % labelModulus⟩ := by
  induction h with
  | start => simp at hi
  | @granted log p q name width range hallots hgrant ih =>
    by_cases hlt : i < log.length
    · rw [List.getElem_append_left hlt, List.take_append_of_le_length (Nat.le_of_lt hlt)]
      exact ih hlt
    · obtain rfl : i = log.length := by
        rw [List.length_append, List.length_singleton] at hi
        omega
      obtain ⟨-, -, rfl, -⟩ := allocate_eq_ok.mp hgrant
      rw [List.getElem_append_right (Nat.le_refl _), List.take_left']
      · simp [hallots.inv.next]
      · rfl
  | refused _ _ ih => exact ih hi

/-- A pool has as many variables as its integers need, as long as labels last. -/
theorem numVariables_eq (h : Allots log p) (hfit : 1 + count log < labelModulus) :
    p.numVariables = count log := by
  have hsum : 1 + count log + (labelModulus - 1) = count log + labelModulus := by
    rw [labelModulus]
    omega
  rw [numVariables, h.inv.next, Nat.mod_eq_of_lt hfit, hsum, Nat.add_mod_right,
    Nat.mod_eq_of_lt (by omega)]

/-- The integers before one and that integer itself need no more labels than all do. -/
theorem count_take_add_le (i : Nat) (hi : i < log.length) :
    count (log.take i) + log[i].width ≤ count log := by
  have hsplit : log = log.take i ++ [log[i]] ++ log.drop (i + 1) := by simp
  conv_rhs => rw [hsplit, Allotment.count_append, Allotment.count_append, Allotment.count_singleton]
  exact Nat.le_add_right _ _

/-- **The labels of an integer** start where those before it end, and are as many as its width, as
long as labels last. -/
theorem range_eq_of_fit (h : Allots log p) (hfit : 1 + count log < labelModulus) (i : Nat)
    (hi : i < log.length) :
    log[i].range = ⟨1 + count (log.take i), 1 + count (log.take i) + log[i].width⟩ := by
  have hle := count_take_add_le i hi
  rw [h.range_eq i hi, Nat.mod_eq_of_lt, Nat.mod_eq_of_lt] <;> omega

theorem labels_eq_of_fit (h : Allots log p) (hfit : 1 + count log < labelModulus) (i : Nat)
    (hi : i < log.length) :
    log[i].range.labels = List.range' (1 + count (log.take i)) log[i].width := by
  rw [h.range_eq_of_fit hfit i hi, LabelRange.labels, Nat.add_sub_cancel_left]

/-- **All labels together** are the numbers from 1 on, each of them once, as long as labels last. -/
theorem flatMap_labels (h : Allots log p) (hfit : 1 + count log < labelModulus) :
    log.flatMap (fun a => a.range.labels) = List.range' 1 (count log) := by
  -- for one integer more at a time
  suffices hprefix : ∀ i, i ≤ log.length → (log.take i).flatMap (fun a => a.range.labels) =
      List.range' 1 (count (log.take i)) by
    simpa using hprefix log.length (Nat.le_refl _)
  intro i hi
  induction i with
  | zero => rfl
  | succ i ih =>
    rw [List.take_succ_eq_append_getElem hi, List.flatMap_append, ih (Nat.le_of_lt hi),
      List.flatMap_singleton, h.labels_eq_of_fit hfit i hi, Allotment.count_append,
      Allotment.count_singleton]
    exact List.range'_append_1

/-- No label is given to two integers, as long as labels last. -/
theorem pairwise_disjoint (h : Allots log p) (hfit : 1 + count log < labelModulus) :
    log.Pairwise fun a b => List.Disjoint a.range.labels b.range.labels := by
  have hnodup : (log.flatMap fun a => a.range.labels).Nodup := by
    rw [h.flatMap_labels hfit]
    exact List.nodup_range'
  exact (List.nodup_flatMap.mp hnodup).2

end Allots

end VariablePool

/-- Words of different variables have no node in common. -/
theorem Circuit.disjoint_bits {c : Circuit} {x y : Word} {r s : LabelRange}
    (hx : c.wordVariable r.start r.stop = .ok x) (hy : c.wordVariable s.start s.stop = .ok y)
    (h : List.Disjoint r.labels s.labels) : List.Disjoint x.bits y.bits := by
  rw [eq_of_wordVariable hx, eq_of_wordVariable hy]
  intro n hn hm
  obtain ⟨v, hv, rfl⟩ := List.mem_map.mp hn
  obtain ⟨w, hw, heq⟩ := List.mem_map.mp hm
  cases heq
  exact h hv hw

namespace VariablePool.Allots

open Allotment (count)

variable {log : List Allotment} {p : VariablePool}

/-- **A circuit with the variables of the pool has a word for every integer** that is not too wide
for it. -/
theorem wordVariable_eq_ok (h : Allots log p) (hfit : 1 + count log < labelModulus) {c : Circuit}
    (hc : c.numVariables = p.numVariables) {a : Allotment} (ha : a ∈ log)
    (hwidth : a.width ≤ c.bitwidth) :
    ∃ x, c.wordVariable a.range.start a.range.stop = .ok x ∧ x.width = a.width := by
  have hpos := h.inv.width_pos a ha
  obtain ⟨i, hi, rfl⟩ := List.getElem_of_mem ha
  have hle := count_take_add_le i hi
  rw [h.range_eq_of_fit hfit i hi]
  rw [h.numVariables_eq hfit] at hc
  dsimp only
  -- neither check finds a fault
  refine ⟨_, by rw [Circuit.wordVariable, if_neg (by omega), if_neg (by omega)], ?_⟩
  rw [Word.width, List.length_map, List.length_range', Nat.add_sub_cancel_left]

/-- **Labels are laid out one after another until they run out, and no longer.** Whatever calls have
been made, every integer of the pool has a width and a name of its own, and the pool tells the
labels that it was given. The integers need less labels than there are if and only if those of each
are as many as its width and start where those before it end, from 1 on. Then they are all the
variables of the pool, none is given twice, and a circuit with that many variables has a word of
just that width for every integer that is not too wide for it, where no two words have a variable in
common. -/
theorem count_lt_iff (h : Allots log p) :
    (∀ a ∈ log, 0 < a.width ∧ p.range? a.name = some a.range) ∧
    (log.map Allotment.name).Nodup ∧
    (1 + count log < labelModulus ↔
      (∀ (i : Nat) (hi : i < log.length), log[i].range =
        ⟨1 + count (log.take i), 1 + count (log.take i) + log[i].width⟩) ∧
      log.flatMap (fun a => a.range.labels) = List.range' 1 p.numVariables ∧
      log.Pairwise (fun a b => List.Disjoint a.range.labels b.range.labels) ∧
      ∀ c : Circuit, c.numVariables = p.numVariables →
        (∀ a ∈ log, a.width ≤ c.bitwidth →
          ∃ x, c.wordVariable a.range.start a.range.stop = .ok x ∧ x.width = a.width) ∧
        log.Pairwise fun a b => ∀ x y, c.wordVariable a.range.start a.range.stop = .ok x →
          c.wordVariable b.range.start b.range.stop = .ok y → List.Disjoint x.bits y.bits) := by
  refine ⟨fun a ha => ⟨h.inv.width_pos a ha, h.inv.found a ha⟩, h.inv.names, ?_, ?_⟩
  · intro hfit
    have hdisjoint := h.pairwise_disjoint hfit
    refine ⟨h.range_eq_of_fit hfit, ?_, hdisjoint, fun c hc => ⟨?_, ?_⟩⟩
    · rw [h.numVariables_eq hfit]
      exact h.flatMap_labels hfit
    · exact fun a ha hwidth => h.wordVariable_eq_ok hfit hc ha hwidth
    · exact hdisjoint.imp fun hab x y hx hy => Circuit.disjoint_bits hx hy hab
  · rintro ⟨hranges, -⟩
    rcases List.eq_nil_or_concat log with rfl | ⟨before, a, rfl⟩
    · decide
    · -- the labels of the last integer end below the number of labels
      rw [List.concat_eq_append] at h hranges ⊢
      have hi : before.length < (before ++ [a]).length := by simp
      have hstop : (1 + count before + a.width) % labelModulus = 1 + count before + a.width := by
        simpa using congrArg LabelRange.stop ((h.range_eq _ hi).symm.trans (hranges _ hi))
      rw [Allotment.count_append, Allotment.count_singleton, ← Nat.add_assoc, ← hstop]
      exact Nat.mod_lt _ (by decide)

/-- An integer of 4 bits and one of 8 have the variables 1 to 4 and 5 to 12, where a second integer
of the first name is refused between the two. -/
theorem count_lt_iff_of_two :
    ∃ p q : VariablePool, p.allocate "x" 2 = .error (.nameTaken "x") ∧
      p.allocate "y" 8 = .ok (⟨5, 13⟩, q) ∧ Allots [⟨"x", 4, ⟨1, 5⟩⟩, ⟨"y", 8, ⟨5, 13⟩⟩] q ∧
      q.range? "x" = some ⟨1, 5⟩ ∧ q.numVariables = 12 ∧
      ∀ c : Circuit, c.numVariables = 12 → c.bitwidth = 8 →
        ∃ x y, c.wordVariable 1 5 = .ok x ∧ c.wordVariable 5 13 = .ok y ∧
          x.width = 4 ∧ y.width = 8 ∧ List.Disjoint x.bits y.bits := by
  obtain ⟨p, hp⟩ : ∃ p, VariablePool.allocate {} "x" 4 = .ok (⟨1, 5⟩, p) := ⟨_, rfl⟩
  have hx : p = ⟨5, ({} : VariablePool).ranges.insert "x" ⟨1, 5⟩⟩ := (allocate_eq_ok.mp hp).2.2.2
  have hrefused : p.allocate "x" 2 = .error (.nameTaken "x") := by
    rw [hx]
    rfl
  obtain ⟨q, hq⟩ : ∃ q, p.allocate "y" 8 = .ok (⟨5, 13⟩, q) := by
    rw [hx]
    exact ⟨_, rfl⟩
  have hlog : Allots [⟨"x", 4, ⟨1, 5⟩⟩, ⟨"y", 8, ⟨5, 13⟩⟩] q :=
    .granted (.refused (.granted .start hp) hrefused) hq
  have hcount : q.numVariables = 12 := hlog.numVariables_eq (by decide)
  obtain ⟨hfound, -, hiff⟩ := count_lt_iff hlog
  obtain ⟨-, -, -, hwords⟩ := hiff.mp (by decide)
  refine ⟨p, q, hrefused, hq, hlog, (hfound _ (.head _)).2, hcount, fun c hc hbitwidth => ?_⟩
  obtain ⟨hword, hdisjoint⟩ := hwords c (hc.trans hcount.symm)
  obtain ⟨x, hx, hxwidth⟩ := hword ⟨"x", 4, ⟨1, 5⟩⟩ (.head _)
    (Nat.le_trans (by decide : 4 ≤ 8) hbitwidth.ge)
  obtain ⟨y, hy, hywidth⟩ := hword ⟨"y", 8, ⟨5, 13⟩⟩ (.tail _ (.head _)) hbitwidth.ge
  exact ⟨x, y, hx, hy, hxwidth, hywidth,
    (List.pairwise_cons.mp hdisjoint).1 _ (.head _) x y hx hy⟩

/-- An integer of 2³² bits is granted no label at all. -/
theorem empty_range_of_width_modulus :
    ∃ p : VariablePool, ∃ a : Allotment, Allots [a] p ∧ a.width = labelModulus ∧
      a.range = ⟨1, 1⟩ ∧ a.range.labels = [] ∧ p.numVariables = 0 := by
  obtain ⟨p, hp⟩ : ∃ p, VariablePool.allocate {} "x" labelModulus = .ok (⟨1, 1⟩, p) :=
    ⟨_, allocate_eq_ok.mpr ⟨by decide, rfl, by decide, rfl⟩⟩
  refine ⟨p, ⟨"x", labelModulus, ⟨1, 1⟩⟩, .granted .start hp, rfl, rfl, rfl, ?_⟩
  rw [(allocate_eq_ok.mp hp).2.2.2]
  rfl

end VariablePool.Allots

end IntCircuit
