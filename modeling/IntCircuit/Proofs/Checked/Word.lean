import IntCircuit.Proofs.Checked.Add
import IntCircuit.Proofs.Checked.Divide
import IntCircuit.Proofs.Checked.Literal
import IntCircuit.Proofs.Checked.Shift
import IntCircuit.Proofs.Word.Operations

/-!
# Words, checked

An operation on words may refuse what it is given, and that is an end like any other; a breach is
not. Where the words of a circuit have as many bits as they can have, a checked operation ends as
the operation over lists does, and the word that it makes is as wide as its operands say.

## Main definitions

* `CheckedWork`: operations on the circuits of a workspace that stop at a breach
* `CheckedWork.Follows`: a checked operation meets no breach and ends as another does
* `Word.Sized`: a word of the circuit with as many bits as it can have
* `CheckedWork.literal`, `CheckedWork.wordOfBits`, `CheckedWork.wordVariable`: words without gates
* `CheckedWork.reduce`: neighbours combined until one word is left

## Main results

* `CheckedWork.Follows.bind`: one operation after another
* `CheckedWork.follows_build`: making gates
* `CheckedWork.follows_unary`, `CheckedWork.follows_binary`, `CheckedWork.follows_relation`,
  `CheckedWork.follows_joinAll`, `CheckedWork.follows_reduce`: operations on words
-/

namespace IntCircuit

/-- An operation on the circuits of a workspace that stops at a breach. -/
abbrev CheckedWork := ExceptT Breach Work

/-- There is a circuit of this bitwidth at the number `id`. -/
def Workspace.Offers (w : Workspace) (id b : Nat) : Prop :=
  ∃ c, w.circuits[id]? = some c ∧ c.id = id ∧ c.bitwidth = b

/-- A word of the circuit at the number `id`, with as many bits as it can have. -/
structure Word.Sized (id b : Nat) (x : Word) : Prop where
  owner : x.owner = id
  bits : x.bits.Sized b

namespace CheckedWork

variable {α β : Type} {id b : Nat}

/-! ## Checked operations -/

/-- Looks at the circuit with this number. -/
def circuit (id : Nat) : CheckedWork Circuit :=
  liftM (Work.circuit id)

/-- Refuses what it is given. -/
def refuse (fault : Fault) : CheckedWork α :=
  liftM (throw fault : Work α)

/-- Goes on with a result, or refuses for the fault found. -/
def ofExcept (e : Except Fault α) : CheckedWork α :=
  liftM (MonadExcept.ofExcept e : Work α)

/-- Makes gates in the circuit with this number. -/
def build (id : Nat) (gates : Checked α) : CheckedWork α :=
  ExceptT.mk (Work.build id gates.run)

/-- On every workspace with a circuit of bitwidth `b` at the number `id`, the checked operation
meets no breach and ends as the plain one does, with the circuit at its number; a result is as
`post` says. -/
def Follows (id b : Nat) (m : CheckedWork α) (plain : Work α) (post : α → Prop) : Prop :=
  ∀ w : Workspace, w.Offers id b →
    m.run.run.run w = ((plain.run.run w).1.map .ok, (plain.run.run w).2) ∧
      (plain.run.run w).2.Offers id b ∧ ∀ a, (plain.run.run w).1 = .ok a → post a

namespace Follows

variable {m : CheckedWork α} {plain : Work α} {f : α → CheckedWork β} {g : α → Work β}
  {post weaker : α → Prop} {last : β → Prop}

protected theorem pure {a : α} (h : post a) : Follows id b (pure a) (pure a) post := by
  intro w hw
  refine ⟨rfl, hw, fun a' ha => ?_⟩
  cases ha
  exact h

protected theorem refuse (fault : Fault) : Follows id b (refuse fault) (throw fault) post := by
  intro w hw
  refine ⟨rfl, hw, fun a ha => ?_⟩
  cases ha

protected theorem ofExcept {e : Except Fault α} (h : ∀ a, e = .ok a → post a) :
    Follows id b (ofExcept e) (MonadExcept.ofExcept e) post := by
  cases e with
  | ok a => exact .pure (h a rfl)
  | error fault => exact .refuse fault

/-- One operation after another. -/
protected theorem bind (hm : Follows id b m plain post)
    (hf : ∀ a, post a → Follows id b (f a) (g a) last) :
    Follows id b (m >>= f) (plain >>= g) last := by
  intro w hw
  obtain ⟨hrun, hw₁, hpost⟩ := hm w hw
  rw [ExceptT.run_bind, run_bind, run_bind, hrun]
  rcases hplain : plain.run.run w with ⟨fault | a, w₁⟩
  · -- a fault is the end of both
    rw [hplain] at hw₁
    refine ⟨rfl, hw₁, fun b hb => ?_⟩
    cases hb
  · rw [hplain] at hw₁ hpost
    exact hf a (hpost a rfl) w₁ hw₁

protected theorem mono (h : Follows id b m plain post) (himp : ∀ a, post a → weaker a) :
    Follows id b m plain weaker := by
  intro w hw
  obtain ⟨hrun, hw₁, hpost⟩ := h w hw
  exact ⟨hrun, hw₁, fun a ha => himp a (hpost a ha)⟩

/-- Both look at the circuit first. -/
theorem look {f : Circuit → CheckedWork β} {g : Circuit → Work β}
    (h : ∀ c : Circuit, c.id = id → c.bitwidth = b → Follows id b (f c) (g c) last) :
    Follows id b (circuit id >>= f) (Work.circuit id >>= g) last := by
  intro w hw
  obtain ⟨c, hc, hid, hbits⟩ := hw
  have hplain : (Work.circuit id).run.run w = (.ok c, w) := Work.runs_circuit hc
  have hrun : (circuit id).run.run.run w = (.ok (.ok c), w) := by
    have hlift : (circuit id).run =
        (Except.ok <$> Work.circuit id : Work (Except Breach Circuit)) := rfl
    rw [hlift, ← bind_pure_comp, run_bind, hplain]
    rfl
  rw [ExceptT.run_bind, run_bind, run_bind, hrun, hplain]
  exact h c hid hbits w ⟨c, hc, hid, hbits⟩

/-- Rounds that keep an invariant. -/
theorem foldlM {step : β → α → CheckedWork β} {plain : β → α → Work β} {items : List α}
    (h : ∀ s, ∀ a ∈ items, last s → Follows id b (step s a) (plain s a) last) {s : β}
    (hs : last s) : Follows id b (items.foldlM step s) (items.foldlM plain s) last := by
  induction items generalizing s with
  | nil => exact .pure hs
  | cons a rest ih =>
    rw [List.foldlM_cons, List.foldlM_cons]
    refine (h s a List.mem_cons_self hs).bind fun s hs => ?_
    exact ih (fun s a ha => h s a (List.mem_cons_of_mem _ ha)) hs

/-- An operation without a result for each item of a list. -/
theorem forM {check : α → CheckedWork PUnit} {plain : α → Work PUnit} {items : List α}
    (h : ∀ a ∈ items, Follows id b (check a) (plain a) fun _ => True) :
    Follows id b (items.forM check) (items.forM plain) fun _ => True := by
  induction items with
  | nil => exact .pure trivial
  | cons a rest ih =>
    refine (h a List.mem_cons_self).bind fun _ _ => ?_
    exact ih fun a ha => h a (List.mem_cons_of_mem _ ha)

end Follows

/-- **Gates are made without a breach** in a workspace if they are so in the circuit. -/
theorem follows_build {gates : Checked α} {plain : Build α} [hg : Build.Grows plain]
    {rel : α → α → Prop} {post : α → Prop} (h : Checked.Follows b gates plain rel)
    (hrel : ∀ a a', rel a a' → a = a' ∧ post a') :
    Follows id b (build id gates) (Work.build id plain) post := by
  rintro w ⟨c, hc, hid, hbits⟩
  have hlt : id < w.circuits.size := (Array.getElem?_eq_some_iff.mp hc).1
  obtain ⟨a, hrun, hbits', ha⟩ := h c hbits
  obtain ⟨rfl, hpost⟩ := hrel a _ ha
  have hbuild : (build id gates).run.run.run w = _ := Work.runs_build hc gates.run
  have hplain : (Work.build id plain).run.run w = _ := Work.runs_build hc plain
  rw [hbuild, hplain, hrun]
  refine ⟨rfl, ⟨_, Array.getElem?_setIfInBounds_self_of_lt hlt, ?_, hbits'⟩, fun a' ha' => ?_⟩
  · exact (hg.grown c).id.trans hid
  · cases ha'
    exact hpost

/-- Where no gate is needed, the workspace is as before. -/
theorem follows_build_pure {gates : Checked α} {a : α} {rel : α → α → Prop} {post : α → Prop}
    (h : Checked.Follows b gates (pure a) rel) (hrel : ∀ a a', rel a a' → a = a' ∧ post a') :
    Follows id b (build id gates) (pure a) post := by
  intro w hw
  have ⟨c, hc, _⟩ := hw
  have hbuild : Follows id b (build id gates) (Work.build id (pure a)) post := follows_build h hrel
  have hends := hbuild w hw
  have hsame : Runs (Work.build id (pure a)) w a w := Work.runs_build_of_same hc rfl
  have hsame' : (Work.build id (pure a)).run.run w = (pure a : Work α).run.run w := hsame
  rwa [hsame'] at hends

/-- Where each result is there, so are all. -/
theorem mapM_eq_pure {m : Type → Type} [Monad m] [LawfulMonad m] {make : α → m β} {f : α → β}
    {items : List α} (h : ∀ a ∈ items, make a = pure (f a)) :
    items.mapM make = pure (items.map f) := by
  induction items with
  | nil => rfl
  | cons a rest ih =>
    rw [List.mapM_cons, h a List.mem_cons_self, ih fun a ha => h a (List.mem_cons_of_mem _ ha),
      pure_bind, pure_bind, List.map_cons]

/-! ## Words that need no gate -/

/-- The integer `n` if `one` holds, and else 0. -/
def literal (c : Circuit) (n : Int) (one : Node) : CheckedWork Word := do
  return ⟨c.id, ← build c.id (Checked.literal (.ofInt 32 n) one)⟩

/-- The word of given bits. -/
def wordOfBits (c : Circuit) (bits : Bits) : CheckedWork Word :=
  if 0 < bits.length ∧ bits.length ≤ c.bitwidth then do
    return ⟨c.id, ← build c.id (Checked.finish bits)⟩
  else refuse (.wordWidth c.bitwidth bits.length)

/-- The word whose bits are the variables from `start` up to, and without, `stop`. -/
def wordVariable (c : Circuit) (start stop : Nat) : CheckedWork Word :=
  if stop ≤ start ∨ start = 0 then refuse (.variableRange start stop c.numVariables)
  else do
    let last ← Checked.minus stop 1
    if c.numVariables < last then refuse (.variableRange start stop c.numVariables)
    else
      let bits ← (List.range' start (stop - start)).mapM fun label : Nat => ofExcept (c.var label)
      wordOfBits c bits

/-- One of the bits of a word over the whole bitwidth. -/
def fullBit (c : Circuit) (x : Word) (i : Nat) : CheckedWork Node :=
  if i < c.bitwidth then Checked.bit x.bits i else refuse (.bitOutOfRange i c.bitwidth)

/-- The integer that a word of constants stands for. -/
def value (x : Word) : CheckedWork Int :=
  match x.bits.constants? with
  | some values => do return (← Checked.decodeInt32 values).toInt
  | none => refuse (.notConstant x.bits.labels)

variable {c : Circuit} {x : Word}

/-- Bits as a word of the circuit. -/
theorem Follows.word {m : CheckedWork Bits} {plain : Work Bits} {width : Nat}
    (h : Follows id b m plain fun bits => bits.length = width) (hwidth : 0 < width ∧ width ≤ b) :
    Follows id b (do return Word.mk id (← m)) (do return Word.mk id (← plain))
      fun z => z.Sized id b ∧ z.width = width := by
  refine h.bind fun bits hbits => ?_
  subst hbits
  exact .pure ⟨⟨rfl, hwidth.1, hwidth.2⟩, rfl⟩

/-- A word of bits that are made. -/
theorem follows_word {gates : Checked Bits} {plain : Build Bits} [Build.Grows plain] {width : Nat}
    (h : Checked.Follows b gates plain (Checked.Made width)) (hwidth : 0 < width ∧ width ≤ b) :
    Follows id b (do return Word.mk id (← build id gates))
      (do return Word.mk id (← Work.build id plain)) fun z => z.Sized id b ∧ z.width = width :=
  (follows_build h fun _ _ hz => ⟨hz.eq, hz.eq ▸ hz.length⟩).word hwidth

/-- A word of bits that are there. -/
theorem follows_word_pure {gates : Checked Bits} {bits : Bits} {width : Nat}
    (h : Checked.Follows b gates (pure bits) (Checked.Made width))
    (hwidth : 0 < width ∧ width ≤ b) :
    Follows id b (do return Word.mk id (← build id gates)) (pure (Word.mk id bits))
      fun z => z.Sized id b ∧ z.width = width := by
  rw [← pure_bind bits fun bits => pure (Word.mk id bits)]
  exact (follows_build_pure h fun _ _ hz => ⟨hz.eq, hz.eq ▸ hz.length⟩).word hwidth

theorem follows_literal (hc : c.id = id) (hb : c.bitwidth = b) {n : Int} (hn : InRange 32 n)
    (one : Node) :
    Follows id b (literal c n one) (pure (c.literalIf n one))
      fun z => z.Sized id b ∧ z.width = Bits.literalWidth b n := by
  have hpos : 0 < b := hb ▸ c.bitwidth_pos
  have hn' : (BitVec.ofInt 32 n).toInt = n := by
    rw [BitVec.toInt_ofInt]
    exact wrap_of_inRange hn
  have hmade := Checked.follows_literal (b := b) (.ofInt 32 n) one
  rw [hn'] at hmade
  rw [literal, Circuit.literalIf, hb, hc]
  exact follows_word_pure hmade ⟨Bits.literalWidth_pos hpos n, Bits.literalWidth_le b n⟩

theorem follows_wordOfBits (hc : c.id = id) (hb : c.bitwidth = b) (bits : Bits) :
    Follows id b (wordOfBits c bits) (MonadExcept.ofExcept (c.wordOfBits bits))
      fun z => z.Sized id b ∧ z.width = bits.length := by
  rw [wordOfBits, Circuit.wordOfBits, hc, hb]
  by_cases h : 0 < bits.length ∧ bits.length ≤ b
  · have hfinish : Checked.Follows b (Checked.finish bits) (pure bits)
        (Checked.Made bits.length) := by
      rw [← bind_pure (Checked.finish bits)]
      exact .finish_bind ⟨h.1, h.2⟩ (.pure ⟨rfl, rfl⟩)
    rw [if_pos h, if_pos h]
    exact follows_word_pure hfinish h
  · rw [if_neg h, if_neg h]
    exact .refuse _

theorem follows_wordVariable (hc : c.id = id) (hb : c.bitwidth = b) (start stop : Nat) :
    Follows id b (wordVariable c start stop) (MonadExcept.ofExcept (c.wordVariable start stop))
      fun z => z.Sized id b ∧ z.width = stop - start := by
  have hbits := follows_wordOfBits hc hb ((List.range' start (stop - start)).map .var)
  rw [List.length_map, List.length_range'] at hbits
  rw [wordVariable]
  by_cases h : stop ≤ start ∨ start = 0
  · rw [if_pos h, Circuit.wordVariable, if_pos (by omega)]
    exact .refuse _
  · rw [if_neg h, Checked.minus_of_le (by omega), pure_bind]
    by_cases hle : c.numVariables < stop - 1
    · rw [if_pos hle, Circuit.wordVariable, if_pos (.inr (.inr hle))]
      exact .refuse _
    · -- every label is that of a variable
      have hvar : ((List.range' start (stop - start)).mapM fun label : Nat =>
          ofExcept (c.var label)) = pure ((List.range' start (stop - start)).map .var) := by
        refine mapM_eq_pure fun label hlabel => ?_
        rw [List.mem_range'_1] at hlabel
        rw [Circuit.var, if_pos (by omega)]
        rfl
      have hplain : c.wordVariable start stop =
          c.wordOfBits ((List.range' start (stop - start)).map .var) := by
        rw [Circuit.wordVariable, Circuit.wordOfBits, List.length_map, List.length_range',
          if_neg (by omega)]
        by_cases hwidth : c.bitwidth < stop - start
        · rw [if_pos hwidth, if_neg (by omega)]
        · rw [if_neg hwidth, if_pos (by omega)]
      rw [if_neg hle, hvar, pure_bind, hplain]
      exact hbits

theorem follows_fullBit (c : Circuit) (hx : x.Sized id b) (i : Nat) :
    Follows id b (fullBit c x i) (MonadExcept.ofExcept (c.fullBit x i)) fun _ => True := by
  rw [fullBit, Circuit.fullBit]
  split
  · rw [Checked.bit_eq hx.bits.pos]
    exact .pure trivial
  · exact .refuse _

theorem follows_value (hb : b ≤ maxBitwidth) (hx : x.Sized id b) :
    Follows id b (value x) (MonadExcept.ofExcept x.value) fun _ => True := by
  rw [value, Word.value]
  cases h : x.bits.constants? with
  | none => exact .refuse _
  | some values =>
    have hlength : values.length = x.bits.length := by
      rw [Bits.constants?_eq_some.mp h, List.length_map]
    have hpos := hx.bits.pos
    have hle := hx.bits.le
    have hmax : values.length ≤ maxBitwidth := by omega
    dsimp only
    rw [Checked.decodeInt32_eq (by omega), pure_bind,
      toInt_decodeInt32 (hmax.trans (by decide)) ((inRange_decode values).mono hmax)]
    exact .pure trivial

/-! ## Operations on words -/

/-- Two words have to be of one circuit. -/
def requireSame (x y : Word) : CheckedWork Unit :=
  liftM (Word.requireSame x y)

/-- A word computed from one word. -/
def unary (op : Bits → Checked Bits) (x : Word) : CheckedWork Word := do
  return ⟨x.owner, ← build x.owner (op x.bits)⟩

/-- A word computed from two words of one circuit. -/
def binary (op : Bits → Bits → Checked Bits) (x y : Word) : CheckedWork Word := do
  requireSame x y
  return ⟨x.owner, ← build x.owner (op x.bits y.bits)⟩

/-- A node computed from two words of one circuit. -/
def relation (op : Bits → Bits → Checked Node) (x y : Word) : CheckedWork Node := do
  requireSame x y
  build x.owner (op x.bits y.bits)

/-- A connective over the bits of a word and all others. -/
def joinAll (op : Connective) (x : Word) (others : List Word) : CheckedWork Word := do
  others.forM (requireSame x)
  return ⟨x.owner, ← build x.owner (Checked.joinAll op x.bits (others.map Word.bits))⟩

/-- Combines neighbours until one word is left, at most `levels` times over. -/
def reduceLevels (op : Word → Word → CheckedWork Word) : Nat → List Word → CheckedWork (List Word)
  | 0, words => pure words
  | levels + 1, words =>
    if 1 < words.length then do reduceLevels op levels (← combinePairs op words) else pure words

/-- Combines a word and all others; the word that is left is the first. -/
def reduce (op : Word → Word → CheckedWork Word) (x : Word) (others : List Word) :
    CheckedWork Word := do
  let words ← reduceLevels op others.length (x :: others)
  Checked.read words 0

variable {y : Word} {others : List Word}

theorem follows_requireSame (hx : x.owner = id) (hy : y.owner = id) :
    Follows id b (requireSame x y) (Word.requireSame x y) fun _ => True := by
  rw [requireSame, Word.requireSame, if_pos (hx.trans hy.symm)]
  exact .pure trivial

theorem follows_unary {op : Bits → Checked Bits} {plain : Bits → Build Bits}
    [∀ x, Build.Grows (plain x)] {width : Nat} (hx : x.Sized id b)
    (h : Checked.Follows b (op x.bits) (plain x.bits) (Checked.Made width))
    (hwidth : 0 < width ∧ width ≤ b) :
    Follows id b (unary op x) (Word.unary plain x) fun z => z.Sized id b ∧ z.width = width := by
  rw [unary, Word.unary, hx.owner]
  exact follows_word h hwidth

theorem follows_binary {op : Bits → Bits → Checked Bits} {plain : Bits → Bits → Build Bits}
    [∀ x y, Build.Grows (plain x y)] {width : Nat} (hx : x.Sized id b) (hy : y.Sized id b)
    (h : Checked.Follows b (op x.bits y.bits) (plain x.bits y.bits) (Checked.Made width))
    (hwidth : 0 < width ∧ width ≤ b) :
    Follows id b (binary op x y) (Word.binary plain x y)
      fun z => z.Sized id b ∧ z.width = width := by
  rw [binary, Word.binary]
  refine (follows_requireSame hx.owner hy.owner).bind fun _ _ => ?_
  rw [hx.owner]
  exact follows_word h hwidth

theorem follows_relation {op : Bits → Bits → Checked Node} {plain : Bits → Bits → Build Node}
    [∀ x y, Build.Grows (plain x y)] (hx : x.Sized id b) (hy : y.Sized id b)
    (h : Checked.Follows b (op x.bits y.bits) (plain x.bits y.bits) Eq) :
    Follows id b (relation op x y) (Word.relation plain x y) fun _ => True := by
  rw [relation, Word.relation]
  refine (follows_requireSame hx.owner hy.owner).bind fun _ _ => ?_
  rw [hx.owner]
  exact follows_build h fun _ _ heq => ⟨heq, trivial⟩

theorem follows_joinAll (op : Connective) (hx : x.Sized id b)
    (hothers : ∀ y ∈ others, y.Sized id b) :
    Follows id b (joinAll op x others) (Word.joinAll op x others) fun z =>
      z.Sized id b ∧ z.width = others.foldl (fun width y => max width y.width) x.width := by
  have hbits : ∀ y ∈ others.map Word.bits, y.Sized b := by
    intro y hy
    obtain ⟨word, hword, rfl⟩ := List.mem_map.mp hy
    exact (hothers word hword).bits
  have hmade := Checked.follows_joinAll op hx.bits hbits
  have hle := Bits.foldl_max_length_le hx.bits.le fun y hy => (hbits y hy).le
  have hpos := Nat.lt_of_lt_of_le hx.bits.pos
    (Bits.foldl_max_length (others.map Word.bits) x.bits.length).1
  rw [List.foldl_map] at hmade hle hpos
  rw [joinAll, Word.joinAll]
  refine (Follows.forM fun y hy => follows_requireSame hx.owner (hothers y hy).owner).bind
    fun _ _ => ?_
  rw [hx.owner]
  exact follows_word hmade ⟨hpos, hle⟩

/-! ### Balanced combination -/

section Reduce

variable {op : Word → Word → CheckedWork Word} {plain : Word → Word → Work Word}
  {width : Nat → Nat → Nat}

/-- One level: two words at a time. -/
theorem follows_combinePairs
    (hop : ∀ x y, x.Sized id b → y.Sized id b →
      Follows id b (op x y) (plain x y) fun z => z.Sized id b ∧ z.width = width x.width y.width)
    {words : List Word} (h : ∀ x ∈ words, x.Sized id b) :
    Follows id b (combinePairs op words) (combinePairs plain words) fun zs =>
      (∀ z ∈ zs, z.Sized id b) ∧
        zs.map Word.width =
          Id.run (combinePairs (fun v w => pure (width v w)) (words.map Word.width)) := by
  induction words using combinePairs.induct with
  | case1 x y rest ih =>
    obtain ⟨hx, htail⟩ := List.forall_mem_cons.mp h
    obtain ⟨hy, hrest⟩ := List.forall_mem_cons.mp htail
    rw [combinePairs, combinePairs]
    refine (hop x y hx hy).bind fun z hz => (ih hrest).bind fun zs hzs => .pure ⟨?_, ?_⟩
    · exact List.forall_mem_cons.mpr ⟨hz.1, hzs.1⟩
    · rw [List.map_cons, hz.2, hzs.2]
      rfl
  | case2 rest hrest =>
    rw [combinePairs_eq_pure hrest, combinePairs_eq_pure hrest]
    refine .pure ⟨h, ?_⟩
    rw [combinePairs_eq_pure]
    · rfl
    · -- there are as many widths as words
      intro v w widths hwidths
      obtain _ | ⟨x, _ | ⟨y, words⟩⟩ := rest
      · cases hwidths
      · cases hwidths
      · exact hrest x y words rfl

/-- **Combining neighbours until one word is left** is combining them level by level. -/
theorem follows_reduce
    (hop : ∀ x y, x.Sized id b → y.Sized id b →
      Follows id b (op x y) (plain x y) fun z => z.Sized id b ∧ z.width = width x.width y.width)
    (hx : x.Sized id b) (hothers : ∀ y ∈ others, y.Sized id b) :
    Follows id b (reduce op x others) (combineTree plain x others) fun z =>
      z.Sized id b ∧ z.width =
        Id.run (combineTree (fun v w => pure (width v w)) x.width (others.map Word.width)) := by
  rw [reduce, combineTree, combineTree, List.length_map]
  generalize others.length = levels
  induction levels generalizing x others with
  | zero => exact .pure ⟨hx, rfl⟩
  | succ levels ih =>
    obtain _ | ⟨y, rest⟩ := others
    · exact .pure ⟨hx, rfl⟩
    obtain ⟨hy, hrest⟩ := List.forall_mem_cons.mp hothers
    have hmany : 1 < (x :: y :: rest).length := Nat.succ_lt_succ (Nat.succ_pos _)
    rw [reduceLevels, if_pos hmany, combinePairs, combineLevels]
    simp only [bind_assoc, pure_bind]
    refine (hop x y hx hy).bind fun z hz => ?_
    refine (follows_combinePairs hop hrest).bind fun zs hzs => ?_
    refine (ih hz.1 hzs.1).mono fun last hlast => ⟨hlast.1, ?_⟩
    rw [hlast.2, hz.2, hzs.2]
    rfl

end Reduce

end CheckedWork

end IntCircuit
