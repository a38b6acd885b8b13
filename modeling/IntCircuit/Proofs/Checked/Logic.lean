import IntCircuit.Proofs.Bits.Compare
import IntCircuit.Proofs.Checked.Basic

/-!
# Positions, checked

A bit is read at its position or, past the end, at the last one, which is one less than the number
of bits. So all that it takes is that there is a bit. Operations at every position, and comparisons
from the lowest bit up or from the sign down, keep to that.

## Main definitions

* `Bits.Sized`: as many bits as an integer can have
* `Checked.bit`, `Checked.sign`, `Checked.extend`: bits at any position
* `Checked.finish`: bits as an integer
* `Checked.zipWith`, `Checked.not`, `Checked.joinAll`: operations at every position
* `Checked.eq`, `Checked.ne`, `Checked.le`, `Checked.lt`: comparisons

## Main results

* `Checked.bit_eq`, `Checked.extend_eq`: what is read if there is a bit
* `Checked.Follows.finish`: bits that are as many as an integer can have
* `Checked.follows_zipWith`, `Checked.follows_joinAll`, `Checked.follows_le`, and so on: the
  operations
-/

namespace IntCircuit

/-- As many bits as an integer can have: at least one, and at most as many as the bitwidth. -/
structure Bits.Sized (b : Nat) (x : Bits) : Prop where
  pos : 0 < x.length
  le : x.length ≤ b

namespace Checked

variable {b : Nat} {x y : Bits}

/-! ## Bits at any position -/

/-- The bit at a position; past the end it is the last bit. -/
def bit {m : Type → Type} [Monad m] (x : Bits) (i : Nat) : ExceptT Breach m Node := do
  let last ← minus x.length 1
  read x (min i last)

/-- The last bit. -/
def sign (x : Bits) : Checked Node := do
  let last ← minus x.length 1
  read x last

/-- The first bits of a list, with copies of a node where it is too short. -/
def resize (x : Bits) (width : Nat) (n : Node) : Bits :=
  x.take width ++ List.replicate (width - x.length) n

/-- The bits with the sign repeated up to the width. -/
def extend (x : Bits) (width : Nat) : Checked Bits := do
  let n ← sign x
  return resize x (max width x.length) n

/-- Bits as an integer, which takes for granted that they are as many as one can have. -/
def finish (x : Bits) : Checked Bits := do
  let c ← get
  require (0 < x.length ∧ x.length ≤ c.bitwidth)
  return x

theorem bit_eq {m : Type → Type} [Monad m] [LawfulMonad m] (hx : 0 < x.length) (i : Nat) :
    (bit x i : ExceptT Breach m Node) = pure (x.bit i) := by
  have hlt : min i (x.length - 1) < x.length := by omega
  rw [bit, minus_of_le hx, pure_bind, read_of_lt hlt, Bits.bit, List.getD_eq_getElem _ _ hlt]

theorem sign_eq (hx : 0 < x.length) : sign x = pure x.sign := by
  rw [Bits.sign, ← bit_eq hx, bit, sign, minus_of_le hx, pure_bind, pure_bind, Nat.min_self]

theorem extend_eq (hx : 0 < x.length) (width : Nat) : extend x width = pure (x.extend width) := by
  have hresize : resize x (max width x.length) x.sign = x.extend width := by
    rw [resize, Bits.extend, List.take_of_length_le (Nat.le_max_right _ _)]
    congr 2
    omega
  rw [extend, sign_eq hx, pure_bind, hresize]

/-- Without a bit there is no last one. -/
example (c : Circuit) : ((sign []).run.run c).1 = .error (.difference 0 1) := rfl

/-- Bits that are as many as an integer can have are finished as they are. -/
theorem Follows.finish_bind {α β : Type} (hx : x.Sized b) {f : Bits → Checked α} {plain : Build β}
    {rel : α → β → Prop} (h : Follows b (f x) plain rel) :
    Follows b (finish x >>= f) plain rel := by
  rw [Checked.finish, bind_assoc]
  refine .look fun c hc => ?_
  rw [require_of ⟨hx.pos, hc ▸ hx.le⟩, pure_bind, pure_bind]
  exact h

protected theorem Follows.finish {m : Checked Bits} {plain : Build Bits} {width : Nat}
    (h : Follows b m plain (Made width)) (hpos : 0 < width) (hle : width ≤ b) :
    Follows b (m >>= finish) plain (Made width) := by
  refine h.bind_left fun z _ hz => ?_
  obtain ⟨rfl, rfl⟩ := hz
  rw [← bind_pure (Checked.finish z)]
  exact .finish_bind ⟨hpos, hle⟩ (.pure ⟨rfl, rfl⟩)

/-- Bits that are part of a result. -/
theorem Follows.finish_map {α : Type} {m : Checked α} {plain : Build Bits} {rel : α → Bits → Prop}
    {width : Nat} (h : Follows b m plain rel) (f : α → Bits)
    (hf : ∀ a z, rel a z → Made width (f a) z) (hpos : 0 < width) (hle : width ≤ b) :
    Follows b (m >>= fun a => Checked.finish (f a)) plain (Made width) := by
  have hmade : Follows b (m >>= fun a => pure (f a)) plain (Made width) :=
    h.bind_left fun a z ha => .pure (hf a z ha)
  simpa only [bind_assoc, pure_bind] using hmade.finish hpos hle

theorem maxWidth_bounds (hx : x.Sized b) (hy : y.Sized b) :
    0 < Bits.maxWidth x y ∧ Bits.maxWidth x y ≤ b :=
  ⟨Nat.lt_of_lt_of_le hx.pos (Nat.le_max_left _ _), Nat.max_le.mpr ⟨hx.le, hy.le⟩⟩

/-- Two integers side by side are what is read of them position by position. -/
theorem align_eq_map {width : Nat} (hx : x.length ≤ width) (hy : y.length ≤ width) :
    Bits.align width x y = (List.range width).map fun i => (x.bit i, y.bit i) := by
  rw [Bits.align, Bits.extend_eq_map_bit hx, Bits.extend_eq_map_bit hy, List.zip_map']

theorem align_maxWidth (x y : Bits) : Bits.align (Bits.maxWidth x y) x y =
    (List.range (Bits.maxWidth x y)).map fun i => (x.bit i, y.bit i) :=
  align_eq_map (Nat.le_max_left _ _) (Nat.le_max_right _ _)

/-! ## Operations at every position -/

/-- One gate for each position of two integers. -/
def zipWith (gate : Node → Node → Build Node) (x y : Bits) : Checked Bits := do
  let bits ← (List.range (Bits.maxWidth x y)).mapM fun i => do gate (← bit x i) (← bit y i)
  finish bits

/-- The complement of every bit. -/
def not (x : Bits) : Checked Bits := do
  let bits ← x.mapM fun n => Build.not n
  finish bits

/-- Collects what is made for each item in turn, and makes no more once the junction is decided. -/
def feed {ι : Type} (make : ι → Checked Node) (j : Junction) : List ι → Checked Junction
  | [] => pure j
  | i :: rest => do
    let next := j.add (← make i)
    if next.isDecided then pure next else feed make next rest

/-- A connective over an integer and all others. -/
def joinAll (op : Connective) (x : Bits) (others : List Bits) : Checked Bits := do
  let width := others.foldl (fun width other => max width other.length) x.length
  let bits ← (List.range width).mapM fun i => do
    let first := (Junction.empty op).add (← bit x i)
    let j ← feed (fun other => bit other i) first others
    Build.accumulate j
  finish bits

theorem follows_zipWith (hx : x.Sized b) (hy : y.Sized b) (gate : Node → Node → Build Node)
    [∀ n k, Build.Grows (gate n k)] :
    Follows b (zipWith gate x y) (Bits.zipWith gate x y) (Made (Bits.maxWidth x y)) := by
  obtain ⟨hpos, hle⟩ := maxWidth_bounds hx hy
  refine Follows.finish ?_ hpos hle
  rw [Bits.zipWith, align_maxWidth, List.mapM_map]
  refine (Follows.mapM fun i _ => ?_).mono fun z _ hz => ⟨hz.eq, hz.length.trans List.length_range⟩
  rw [bit_eq hx.pos, bit_eq hy.pos, pure_bind, pure_bind]
  exact .gate _

theorem follows_not (hx : x.Sized b) : Follows b (not x) (Bits.not x) (Made x.length) :=
  Follows.finish (.mapM fun _ _ => .gate _) hx.pos hx.le

theorem follows_feed {ι : Type} {make : ι → Checked Node} {plain : ι → Build Node} {items : List ι}
    (h : ∀ i ∈ items, Follows b (make i) (plain i) Eq) (j : Junction) :
    Follows b (feed make j items) (Junction.feed plain j items) Eq := by
  induction items generalizing j with
  | nil => exact .pure rfl
  | cons i rest ih =>
    rw [feed, Junction.feed]
    refine (h i List.mem_cons_self).bind fun n _ hn => ?_
    subst hn
    dsimp only
    split
    · exact .pure rfl
    · exact ih (fun k hk => h k (List.mem_cons_of_mem i hk)) _

theorem feed_map {ι κ : Type} (plain : κ → Build Node) (g : ι → κ) (j : Junction) (items : List ι) :
    Junction.feed plain j (items.map g) = Junction.feed (fun i => plain (g i)) j items := by
  induction items generalizing j with
  | nil => rfl
  | cons i rest ih => simp only [List.map_cons, Junction.feed, ih]

/-- Inputs that are there need not be built. -/
theorem feed_pure {ι : Type} {make : ι → Checked Node} {g : ι → Node} {items : List ι}
    (h : ∀ i ∈ items, make i = pure (g i)) (j : Junction) :
    feed make j items = pure (j.addUntilDecided (items.map g)) := by
  induction items generalizing j with
  | nil => rfl
  | cons i rest ih =>
    rw [feed, h i List.mem_cons_self, pure_bind, List.map_cons, Junction.addUntilDecided]
    dsimp only
    split
    · rfl
    · exact ih (fun k hk => h k (List.mem_cons_of_mem i hk)) _

theorem follows_joinAll (op : Connective) (hx : x.Sized b) {others : List Bits}
    (hothers : ∀ y ∈ others, y.Sized b) :
    Follows b (joinAll op x others) (Bits.joinAll op x others)
      (Made (others.foldl (fun width other => max width other.length) x.length)) := by
  have hpos := Nat.lt_of_lt_of_le hx.pos (Bits.foldl_max_length others x.length).1
  have hle := Bits.foldl_max_length_le hx.le fun y hy => (hothers y hy).le
  refine Follows.finish ?_ hpos hle
  refine (Follows.mapM fun i _ => ?_).mono fun z _ hz => ⟨hz.eq, hz.length.trans List.length_range⟩
  rw [bit_eq hx.pos, pure_bind]
  dsimp only
  rw [feed_pure fun y hy => bit_eq (hothers y hy).pos i, pure_bind]
  exact .gate _

/-! ## Comparisons -/

/-- Whether two integers are equal. -/
def eq (x y : Bits) : Checked Node := do
  let agree ← feed (fun i => do Build.iff (← bit x i) (← bit y i)) (.empty .and)
    (List.range (Bits.maxWidth x y))
  Build.accumulate agree

/-- Whether two integers differ. -/
def ne (x y : Bits) : Checked Node := do
  Build.not (← eq x y)

/-- Collects, for positions from high to low, that the first integer is at most the second wherever
all higher bits agree. -/
def leBelow (x y : Bits) (j : Junction) (agree : Node) : List Nat → Checked Junction
  | [] => pure j
  | i :: rest => do
    let v ← bit x i
    let w ← bit y i
    let next := j.add (← Build.implies agree (← Build.implies v w))
    if next.isDecided then pure next
    else leBelow x y next (← Build.and agree (← Build.iff v w)) rest

/-- Whether the first integer is at most the second. -/
def le (x y : Bits) : Checked Node := do
  let last ← minus (Bits.maxWidth x y) 1
  let sign := (Junction.empty .and).add (← Build.implies (← bit y last) (← bit x last))
  let agree ← Build.iff (← bit x last) (← bit y last)
  let below ← leBelow x y sign agree (List.range last).reverse
  Build.accumulate below

/-- Whether the first integer is less than the second. -/
def lt (x y : Bits) : Checked Node := do
  let atMost ← le x y
  let differ ← feed (fun i => do Build.xor (← bit x i) (← bit y i)) (.empty .or)
    (List.range (Bits.maxWidth x y))
  Build.and atMost (← Build.accumulate differ)

/-- A gate over each pair of bits, up to the one that decides. -/
theorem follows_feed_align (hx : x.Sized b) (hy : y.Sized b) (gate : Node → Node → Build Node)
    [∀ n k, Build.Grows (gate n k)] (j : Junction) :
    Follows b
      (feed (fun i => do gate (← bit x i) (← bit y i)) j (List.range (Bits.maxWidth x y)))
      (Junction.feed (fun (n, k) => gate n k) j (Bits.align (Bits.maxWidth x y) x y)) Eq := by
  rw [align_maxWidth, feed_map]
  refine follows_feed (fun i _ => ?_) j
  rw [bit_eq hx.pos, bit_eq hy.pos, pure_bind, pure_bind]
  exact .gate _

theorem follows_eq (hx : x.Sized b) (hy : y.Sized b) : Follows b (eq x y) (Bits.eq x y) Eq := by
  refine (follows_feed_align hx hy Build.iff _).bind fun j _ hj => ?_
  subst hj
  exact .gate _

theorem follows_ne (hx : x.Sized b) (hy : y.Sized b) : Follows b (ne x y) (Bits.ne x y) Eq := by
  refine (follows_eq hx hy).bind fun n _ hn => ?_
  subst hn
  exact .gate _

theorem follows_leBelow (hx : x.Sized b) (hy : y.Sized b) (j : Junction) (agree : Node)
    (places : List Nat) :
    Follows b (leBelow x y j agree places)
      (Bits.leBelow j agree (places.map fun i => (x.bit i, y.bit i))) Eq := by
  induction places generalizing j agree with
  | nil => exact .pure rfl
  | cons i rest ih =>
    rw [leBelow, List.map_cons, Bits.leBelow, bit_eq hx.pos, bit_eq hy.pos, pure_bind, pure_bind]
    refine .gate_bind fun n => .gate_bind fun k => ?_
    dsimp only
    split
    · exact .pure rfl
    · exact .gate_bind fun same => .gate_bind fun next => ih _ next

theorem follows_le (hx : x.Sized b) (hy : y.Sized b) : Follows b (le x y) (Bits.le x y) Eq := by
  obtain ⟨hpos, -⟩ := maxWidth_bounds hx hy
  have hlast : Bits.maxWidth x y - 1 + 1 = Bits.maxWidth x y := Nat.sub_add_cancel hpos
  have hxle : x.length ≤ Bits.maxWidth x y - 1 + 1 :=
    (Nat.le_max_left _ _).trans hlast.ge
  have hyle : y.length ≤ Bits.maxWidth x y - 1 + 1 :=
    (Nat.le_max_right _ _).trans hlast.ge
  have hbelow :
      ((Bits.align (Bits.maxWidth x y - 1 + 1) x y).take (Bits.maxWidth x y - 1)).reverse =
        (List.range (Bits.maxWidth x y - 1)).reverse.map fun i => (x.bit i, y.bit i) := by
    rw [Bits.take_align hxle hyle, List.zip_map', List.map_reverse]
  rw [le, Bits.le, minus_of_le hpos, pure_bind, bit_eq hx.pos, bit_eq hy.pos]
  simp only [pure_bind, hbelow]
  refine .gate_bind fun sign => .gate_bind fun agree => ?_
  refine (follows_leBelow hx hy _ agree _).bind fun j _ hj => ?_
  subst hj
  exact .gate _

theorem follows_lt (hx : x.Sized b) (hy : y.Sized b) : Follows b (lt x y) (Bits.lt x y) Eq := by
  refine (follows_le hx hy).bind fun atMost _ hatMost => ?_
  subst hatMost
  refine (follows_feed_align hx hy Build.xor _).bind fun j _ hj => ?_
  subst hj
  exact .gate_bind fun _ => .gate _

end Checked

end IntCircuit
