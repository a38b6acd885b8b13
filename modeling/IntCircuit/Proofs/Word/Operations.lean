import IntCircuit.Proofs.Bits.Compare
import IntCircuit.Proofs.Bits.Divide
import IntCircuit.Proofs.Bits.Multiply
import IntCircuit.Proofs.Bits.Shift
import IntCircuit.Proofs.Judgement
import IntCircuit.Proofs.Runs
import IntCircuit.Proofs.Word.Basic
import IntCircuit.Word.Operations

/-!
# Operations on words of one circuit

Operations on words of one circuit find no fault, whether labels last or not. Unless labels run out,
the circuit stays sound and the word that they make stands for the integer that they say.

## Main definitions

* `Work.Ensures`: what holds after an operation on one circuit of a workspace
* `Word.Stands`: a word of a circuit that stands for an integer

## Main results

* `Work.Ensures.bind`: one operation after another
* `Judgement.combineTree`: what balanced combination keeps
* `Word.ensures_unary`, `Word.ensures_binary`, `Word.ensures_relation`: words made by gates
* `Word.ensures_combineTree`: any number of words, combined two at a time
* `Word.ensures_joinAll`: any number of words, combined at every position
-/

namespace IntCircuit

namespace Work

variable {α β : Type}

/-- On every workspace with the circuit `c` at the number `id`, the operation ends without a fault
and with a later state of the circuit there; its result is `always` as wanted, and unless labels run
out, it is as `post` says if `pre` holds before. -/
def Ensures (id : Nat) (c : Circuit) (m : Work α) (always : α → Prop) (pre : Prop)
    (post : α → Circuit → Prop) : Prop :=
  ∀ w : Workspace, w.circuits[id]? = some c → ∃ a d w₁, Runs m w a w₁ ∧
    w₁.circuits[id]? = some d ∧ c ≤ d ∧ always a ∧
    (d.maxLabel + 1 < labelModulus → pre → c.Reaches d ∧ d.Sound ∧ post a d)

variable {id : Nat} {c : Circuit} {m : Work α} {f : α → Work β} {always : α → Prop}
  {last : β → Prop} {pre : Prop} {mid post : α → Circuit → Prop} {final : β → Circuit → Prop}

namespace Ensures

protected theorem pure {a : α} (halways : always a) (hpre : pre → c.Sound ∧ post a c) :
    Ensures id c (pure a) always pre post :=
  fun w hw => ⟨a, c, w, .pure a w, hw, le_refl c, halways, fun _ h => ⟨.refl, hpre h⟩⟩

/-- One operation after another. -/
protected theorem bind (hm : Ensures id c m always pre mid)
    (hf : ∀ a d, c ≤ d → always a →
      Ensures id d (f a) last (pre ∧ d.Sound ∧ mid a d) final) :
    Ensures id c (m >>= f) last pre final := by
  intro w hw
  obtain ⟨a, d, w₁, hrun, hw₁, hcd, halways, hmid⟩ := hm w hw
  obtain ⟨b, e, w₂, hrun', hw₂, hde, hlast, hfinal⟩ := hf a d hcd halways w₁ hw₁
  refine ⟨b, e, w₂, hrun.bind hrun', hw₂, hcd.trans hde, hlast, fun hl hpre => ?_⟩
  -- labels that last to the end have lasted in between
  obtain ⟨hreach, hsound, hpost⟩ := hmid (Circuit.maxLabel_lt_mono hde hl) hpre
  obtain ⟨hreach', hsound', hpost'⟩ := hfinal hl ⟨hpre, hsound, hpost⟩
  exact ⟨hreach.trans hreach', hsound', hpost'⟩

protected theorem mono {others : α → Prop} {weaker : α → Circuit → Prop} {stronger : Prop}
    (hm : Ensures id c m always pre post) (halways : ∀ a, always a → others a)
    (hpre : stronger → pre)
    (hpost : ∀ a d, c ≤ d → d.Sound → stronger → post a d → weaker a d) :
    Ensures id c m others stronger weaker := by
  intro w hw
  obtain ⟨a, d, w₁, hrun, hw₁, hcd, ha, hd⟩ := hm w hw
  refine ⟨a, d, w₁, hrun, hw₁, hcd, halways a ha, fun hl hs => ?_⟩
  obtain ⟨hreach, hsound, hpost'⟩ := hd hl (hpre hs)
  exact ⟨hreach, hsound, hpost a d hcd hsound hs hpost'⟩

/-- It is enough that `pre` follows from what holds before. -/
theorem given {stronger : Prop} (hm : Ensures id c m always pre post) (hpre : stronger → pre) :
    Ensures id c m always stronger post :=
  hm.mono (fun _ h => h) hpre fun _ _ _ _ _ h => h

/-- What follows from `post` holds after the operation. -/
theorem imp {weaker : α → Circuit → Prop} (hm : Ensures id c m always pre post)
    (hpost : ∀ a d, post a d → weaker a d) : Ensures id c m always pre weaker :=
  hm.mono (fun _ h => h) (fun h => h) fun a d _ _ _ => hpost a d

end Ensures

theorem runs_circuit {w : Workspace} (hw : w.circuits[id]? = some c) :
    Runs (circuit id) w c w := by
  have hget : Runs (get : Work Workspace) w w w := rfl
  rw [circuit]
  refine hget.bind ?_
  rw [hw]
  exact .pure c w

theorem runs_build {w : Workspace} (hw : w.circuits[id]? = some c) (gates : Build α) :
    Runs (build id gates) w (gates.run c).1
      { w with circuits := w.circuits.setIfInBounds id (gates.run c).2 } := by
  rw [build]
  refine (runs_circuit hw).bind ?_
  rfl

/-- Without a new gate the circuit is put back as it was. -/
theorem runs_build_of_same {w : Workspace} (hw : w.circuits[id]? = some c) {gates : Build α}
    (hsame : (gates.run c).2 = c) : Runs (build id gates) w (gates.run c).1 w := by
  have hput : w.circuits.setIfInBounds id c = w.circuits := by
    obtain ⟨hlt, rfl⟩ := Array.getElem?_eq_some_iff.mp hw
    rw [Array.setIfInBounds, dif_pos hlt, Array.set_getElem_self]
  have hrun := runs_build hw gates
  rwa [hsame, hput] at hrun

/-- A new circuit stands at the number that was told. -/
theorem circuit_of_runs_create {numVariables id : Nat} {settings : Settings}
    {w w₀ : Workspace} (h : Runs (create numVariables settings) w id w₀) :
    ∃ c, Circuit.create id numVariables settings = .ok c ∧ w₀.circuits[id]? = some c := by
  rw [create, Runs.get_bind] at h
  dsimp only at h
  cases hcreate : Circuit.create w.circuits.size numVariables settings with
  | ok c =>
    rw [hcreate] at h
    cases h
    exact ⟨c, hcreate, Array.getElem?_push_size⟩
  | error fault =>
    rw [hcreate] at h
    exact (Runs.not_throw fault h).elim

/-- Looking at the circuit. -/
theorem ensures_circuit (id : Nat) (c : Circuit) :
    Ensures id c (circuit id) (fun d => d = c) c.Sound fun _ _ => True :=
  fun w hw => ⟨c, c, w, runs_circuit hw, hw, le_refl c, rfl, fun _ h => ⟨.refl, h, trivial⟩⟩

/-- Making gates in the circuit. -/
theorem ensures_build {gates : Build α} [hg : Build.Grows gates]
    (h : pre → Build.Ensures c gates post) :
    Ensures id c (build id gates) (fun _ => True) pre post := by
  intro w hw
  have hlt : id < w.circuits.size := (Array.getElem?_eq_some_iff.mp hw).1
  exact ⟨_, _, _, runs_build hw gates, Array.getElem?_setIfInBounds_self_of_lt hlt, hg.grown c,
    trivial, fun hl hpre => h hpre hl⟩

/-- An operation that is known to find no fault. -/
theorem ensures_ofExcept {e : Except Fault α} {a : α} (he : e = .ok a) (halways : always a)
    (hpre : pre → c.Sound ∧ post a c) :
    Ensures id c (MonadExcept.ofExcept e) always pre post := by
  subst he
  exact .pure halways hpre

end Work

/-- A word of the circuit. -/
def Circuit.OwnsWord (d : Circuit) (x : Word) : Prop :=
  d.Denotes x.bits fun σ => x.denote σ

theorem Circuit.Denotes.ownsWord {d : Circuit} {x : Word} {f : (Nat → Bool) → Int}
    (h : d.Denotes x.bits f) : d.OwnsWord x :=
  ⟨h.owns, h.width_pos, h.width_le, fun _ => rfl⟩

/-! ## Balanced combination -/

section CombineTree

variable {m : Type → Type} [Monad m] {α : Type} {op : α → α → m α} {items : List α}

/-- Less than two items stay as they are. -/
theorem combinePairs_eq_pure
    (h : ∀ (a b : α) (rest : List α), items = a :: b :: rest → False) :
    combinePairs op items = pure items := by
  rw [combinePairs]
  exact h

namespace Judgement

variable {P : {α : Type} → m α → (α → Prop) → Prop} {good : α → Prop}

/-- One level, two items at a time. -/
theorem combinePairs (hP : Judgement P) (hop : ∀ a b, good a → good b → P (op a b) good)
    (h : ∀ a ∈ items, good a) :
    P (combinePairs op items) fun results => ∀ c ∈ results, good c := by
  induction items using combinePairs.induct with
  | case1 a b rest ih =>
    obtain ⟨ha, htail⟩ := List.forall_mem_cons.mp h
    obtain ⟨hb, hrest⟩ := List.forall_mem_cons.mp htail
    rw [IntCircuit.combinePairs]
    refine hP.bind (hop a b ha hb) fun c hc => ?_
    exact hP.bind (ih hrest) fun results hresults =>
      hP.pure (List.forall_mem_cons.mpr ⟨hc, hresults⟩)
  | case2 rest hrest =>
    rw [combinePairs_eq_pure hrest]
    exact hP.pure h

/-- **Balanced combination** keeps what combining two items keeps. -/
theorem combineTree (hP : Judgement P) (hop : ∀ a b, good a → good b → P (op a b) good) {first : α}
    (hfirst : good first) (h : ∀ a ∈ items, good a) : P (combineTree op first items) good := by
  rw [IntCircuit.combineTree]
  generalize items.length = levels
  induction levels generalizing first items with
  | zero => exact hP.pure hfirst
  | succ levels ih =>
    cases items with
    | nil => exact hP.pure hfirst
    | cons second rest =>
      obtain ⟨hsecond, hrest⟩ := List.forall_mem_cons.mp h
      rw [combineLevels]
      refine hP.bind (hop first second hfirst hsecond) fun c hc => ?_
      exact hP.bind (hP.combinePairs hop hrest) fun results hresults => ih hc hresults

end Judgement

end CombineTree

namespace Word

variable {id : Nat} {c : Circuit} {pre : Prop} {x y : Word} {post : Bits → Circuit → Prop}
  {m n : (Nat → Bool) → Int}

theorem ensures_unary {op : Bits → Build Bits} [∀ x, Build.Grows (op x)] (hx : x.owner = id)
    (h : pre → Build.Ensures c (op x.bits) post) :
    Work.Ensures id c (unary op x) (fun z => z.owner = id) pre fun z d => post z.bits d := by
  rw [unary, hx]
  exact (Work.ensures_build h).bind fun z d _ _ => .pure rfl fun ⟨_, hd, hz⟩ => ⟨hd, hz⟩

theorem ensures_requireSame (hx : x.owner = id) (hy : y.owner = id) :
    Work.Ensures id c (requireSame x y) (fun _ => True) c.Sound fun _ _ => True := by
  rw [requireSame, if_pos (hx.trans hy.symm)]
  exact .pure trivial fun hc => ⟨hc, trivial⟩

/-- A word made from two words of the circuit, by what is made from their bits. -/
theorem ensures_binary {op : Bits → Bits → Build Bits} [∀ x y, Build.Grows (op x y)]
    (hx : x.owner = id) (hy : y.owner = id)
    (h : pre → c.Sound ∧ c.Denotes x.bits m ∧ c.Denotes y.bits n)
    (hop : pre → ∀ d, c ≤ d → d.Sound → d.Denotes x.bits m → d.Denotes y.bits n →
      Build.Ensures d (op x.bits y.bits) post) :
    Work.Ensures id c (binary op x y) (fun z => z.owner = id) pre fun z d => post z.bits d := by
  rw [binary]
  refine ((ensures_requireSame hx hy).given fun hp => (h hp).1).bind fun _ d hcd _ => ?_
  rw [hx]
  exact (Work.ensures_build fun ⟨hp, hd, _⟩ =>
    hop hp d hcd hd ((h hp).2.1.mono hcd) ((h hp).2.2.mono hcd)).bind
    fun z e _ _ => .pure rfl fun ⟨_, he, hz⟩ => ⟨he, hz⟩

/-- A node made from two words of the circuit, by what is made from their bits. -/
theorem ensures_relation {op : Bits → Bits → Build Node} [∀ x y, Build.Grows (op x y)]
    {post : Node → Circuit → Prop} (hx : x.owner = id) (hy : y.owner = id)
    (h : pre → c.Sound ∧ c.Denotes x.bits m ∧ c.Denotes y.bits n)
    (hop : ∀ d, d.Sound → d.Denotes x.bits m → d.Denotes y.bits n →
      Build.Ensures d (op x.bits y.bits) post) :
    Work.Ensures id c (relation op x y) (fun _ => True) pre post := by
  rw [relation]
  refine ((ensures_requireSame hx hy).given fun hp => (h hp).1).bind fun _ d hcd _ => ?_
  rw [hx]
  exact Work.ensures_build fun ⟨hp, hd, _⟩ =>
    hop d hd ((h hp).2.1.mono hcd) ((h hp).2.2.mono hcd)

/-! ## Any number of words -/

/-- An operation on two words that computes a function of their integers, wrapped to the bitwidth,
where the function does not mind wrapping and the order in which it is applied. -/
structure Combines (op : Word → Word → Work Word) (f : Int → Int → Int) : Prop where
  ensures : ∀ (id : Nat) (c : Circuit) (x y : Word), x.owner = id → y.owner = id →
    Work.Ensures id c (op x y) (fun z => z.owner = id) (c.Sound ∧ c.OwnsWord x ∧ c.OwnsWord y)
      fun z d => d.Denotes z.bits fun σ => wrap d.bitwidth (f (x.denote σ) (y.denote σ))
  congr : ∀ k a a' b b' : Int, a ≡ a' [ZMOD k] → b ≡ b' [ZMOD k] → f a b ≡ f a' b' [ZMOD k]
  assoc : ∀ a b c : Int, f a (f b c) = f (f a b) c

variable {op : Word → Word → Work Word} {f : Int → Int → Int}

theorem Combines.foldl_congr (hop : Combines op f) {k a a' : Int} (h : a ≡ a' [ZMOD k])
    (values : List Int) : values.foldl f a ≡ values.foldl f a' [ZMOD k] := by
  induction values generalizing a a' with
  | nil => exact h
  | cons value rest ih => exact ih (hop.congr k _ _ _ _ h rfl)

/-- One level: neighbours are combined, and what all words make together stays as it is. -/
theorem ensures_combinePairs (hop : Combines op f) (id : Nat) (c : Circuit) (words : List Word)
    (howner : ∀ x ∈ words, x.owner = id) :
    Work.Ensures id c (combinePairs op words)
      (fun zs => zs.length ≤ words.length ∧ ∀ z ∈ zs, z.owner = id)
      (c.Sound ∧ ∀ x ∈ words, c.OwnsWord x) fun zs d => (∀ z ∈ zs, d.OwnsWord z) ∧
        ∀ (σ : Nat → Bool) (k : Int), (zs.map (denote σ)).foldl f k ≡
          (words.map (denote σ)).foldl f k [ZMOD 2 ^ d.bitwidth] := by
  -- two words at a time, as the level takes them
  induction words using combinePairs.induct generalizing c with
  | case1 a b rest ih =>
    have ha := howner a (by simp)
    have hb := howner b (by simp)
    rw [combinePairs]
    refine ((hop.ensures id c a b ha hb).given
      fun ⟨hc, h⟩ => ⟨hc, h a (by simp), h b (by simp)⟩).bind fun z d hcd hz => ?_
    refine ((ih d fun x hx => howner x (by simp [hx])).given fun ⟨⟨_, h⟩, hd, _⟩ =>
      ⟨hd, fun x hx => (h x (by simp [hx])).mono hcd⟩).bind fun zs e hde hzs => ?_
    refine .pure ⟨?_, ?_⟩ fun ⟨⟨_, _, hz'⟩, he, hzs', hvalue⟩ => ⟨he, ?_, ?_⟩
    · rw [List.length_cons, List.length_cons, List.length_cons]
      omega
    · exact List.forall_mem_cons.mpr ⟨hz, hzs.2⟩
    · exact List.forall_mem_cons.mpr ⟨hz'.ownsWord.mono hde, hzs'⟩
    · intro σ k
      -- the pair makes what its words make one after another
      have hpair : f k (z.denote σ) ≡ f (f k (a.denote σ)) (b.denote σ) [ZMOD 2 ^ e.bitwidth] := by
        rw [← hop.assoc, hde.bitwidth]
        refine hop.congr _ _ _ _ _ rfl ?_
        rw [denote, hz'.denote]
        exact wrap_modEq _ _
      simp only [List.map_cons, List.foldl_cons]
      exact (hop.foldl_congr hpair _).trans (hvalue σ _)
  | case2 rest hrest =>
    rw [combinePairs_eq_pure hrest]
    exact .pure ⟨Nat.le_refl _, howner⟩ fun ⟨hc, h⟩ => ⟨hc, h, fun _ _ => rfl⟩

theorem ensures_combineLevels (hop : Combines op f) (id : Nat) (c : Circuit) {levels : Nat}
    {first : Word} {others : List Word} (hlevels : others.length ≤ levels)
    (hfirst : first.owner = id) (howner : ∀ x ∈ others, x.owner = id) :
    Work.Ensures id c (combineLevels op levels first others) (fun z => z.owner = id)
      (c.Sound ∧ c.OwnsWord first ∧ ∀ x ∈ others, c.OwnsWord x) fun z d => d.OwnsWord z ∧
        ∀ σ : Nat → Bool, z.denote σ ≡ (others.map (denote σ)).foldl f (first.denote σ)
          [ZMOD 2 ^ d.bitwidth] := by
  induction levels generalizing c first others with
  | zero =>
    obtain rfl := List.eq_nil_of_length_eq_zero (Nat.le_zero.mp hlevels)
    exact .pure hfirst fun ⟨hc, h, _⟩ => ⟨hc, h, fun _ => rfl⟩
  | succ levels ih =>
    cases others with
    | nil => exact .pure hfirst fun ⟨hc, h, _⟩ => ⟨hc, h, fun _ => rfl⟩
    | cons second rest =>
      have hsecond := howner second List.mem_cons_self
      -- the first two words make the first of the next level, and the others pair up
      rw [combineLevels]
      refine ((hop.ensures id c first second hfirst hsecond).given fun ⟨hc, h, hs⟩ =>
        ⟨hc, h, hs second List.mem_cons_self⟩).bind fun z d hcd hz => ?_
      refine ((ensures_combinePairs hop id d rest
        fun x hx => howner x (List.mem_cons_of_mem _ hx)).given fun ⟨⟨_, _, h⟩, hd, _⟩ =>
        ⟨hd, fun x hx => (h x (List.mem_cons_of_mem _ hx)).mono hcd⟩).bind fun zs e hde hzs => ?_
      refine (ih e (Nat.le_trans hzs.1 (Nat.le_of_succ_le_succ hlevels)) hz hzs.2).mono
        (fun _ h => h)
        (fun ⟨⟨_, _, h⟩, he, hpairs, _⟩ => ⟨he, h.ownsWord.mono hde, hpairs⟩)
        fun y g heg hg ⟨⟨_, _, hz'⟩, _, _, hpairs⟩ ⟨hy, hvalue⟩ => ⟨hy, fun σ => ?_⟩
      have hstep : z.denote σ ≡ f (first.denote σ) (second.denote σ) [ZMOD 2 ^ g.bitwidth] := by
        rw [denote, hz'.denote, heg.bitwidth, hde.bitwidth]
        exact wrap_modEq _ _
      have hrest := hpairs σ (z.denote σ)
      rw [← heg.bitwidth] at hrest
      simp only [List.map_cons, List.foldl_cons]
      exact (hvalue σ).trans (hrest.trans (hop.foldl_congr hstep _))

/-- **Any number of words, combined two at a time**, make what they make one after another. -/
theorem ensures_combineTree (hop : Combines op f) (id : Nat) (c : Circuit) {first : Word}
    {others : List Word} (hfirst : first.owner = id) (howner : ∀ x ∈ others, x.owner = id) :
    Work.Ensures id c (combineTree op first others) (fun z => z.owner = id)
      (c.Sound ∧ c.OwnsWord first ∧ ∀ x ∈ others, c.OwnsWord x) fun z d =>
        d.Denotes z.bits fun σ =>
          wrap d.bitwidth ((others.map (denote σ)).foldl f (first.denote σ)) := by
  rw [combineTree]
  refine (ensures_combineLevels hop id c (Nat.le_refl _) hfirst howner).imp
    fun z d ⟨hz, hvalue⟩ => hz.congr fun σ => ?_
  -- an integer in range that is congruent to the result is the wrapped result
  rw [← wrap_of_inRange (hz.inRange σ)]
  exact wrap_congr (hvalue σ)

theorem ensures_forM_requireSame {others : List Word} (hx : x.owner = id)
    (howner : ∀ y ∈ others, y.owner = id) :
    Work.Ensures id c (others.forM (requireSame x)) (fun _ => True) c.Sound fun _ _ => True := by
  induction others generalizing c with
  | nil => exact .pure trivial fun hc => ⟨hc, trivial⟩
  | cons y rest ih =>
    refine (ensures_requireSame hx (howner y List.mem_cons_self)).bind fun _ d _ _ => ?_
    exact (ih fun z hz => howner z (List.mem_cons_of_mem y hz)).given fun ⟨_, hd, _⟩ => hd

/-- **A connective over words** of one circuit. -/
theorem ensures_joinAll (op : Connective) {others : List Word} (hx : x.owner = id)
    (howner : ∀ y ∈ others, y.owner = id) :
    Work.Ensures id c (joinAll op x others) (fun z => z.owner = id)
      (c.Sound ∧ c.OwnsWord x ∧ ∀ y ∈ others, c.OwnsWord y) fun z d =>
        d.Denotes z.bits fun σ => (others.map (denote σ)).foldl op.onInt (x.denote σ) := by
  rw [joinAll]
  refine ((ensures_forM_requireSame hx howner).given And.left).bind fun _ d hcd _ => ?_
  rw [hx]
  refine (Work.ensures_build fun ⟨⟨_, hword, hwords⟩, hd, _⟩ => ?_).bind
    fun z e _ _ => .pure rfl fun ⟨_, he, hz⟩ => ⟨he, hz⟩
  have hbits : ∀ y ∈ others.map bits, d.Denotes y fun σ => y.denote σ := by
    intro y hy
    obtain ⟨word, hmem, rfl⟩ := List.mem_map.mp hy
    exact (hwords word hmem).mono hcd
  refine (Bits.ensures_joinAll hd op (hword.mono hcd) hbits).mono
    fun z e _ _ hz => hz.congr fun σ => ?_
  rw [List.map_map]
  rfl

end Word

end IntCircuit
