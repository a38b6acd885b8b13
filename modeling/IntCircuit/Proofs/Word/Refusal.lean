import IntCircuit.Proofs.Word.Outcome

/-!
# Refusals

An operation on words of different circuits is refused. Two words are looked at before any gate is
made for them, and so are all words that a connective joins. Of words that are combined two at a
time, a foreign one may be met late: the gates made until then stay. None that was there is lost.

## Main definitions

* `Workspace.Grown`: the later states of a workspace, as the order `w ≤ w₁`
* `Work.Refuses`: an operation that is refused because two words are of different circuits
* `Work.Ends`: an operation that ends as wanted, or is refused
* `Word.Levels`: what one level of a combination makes of words

## Main results

* `Relation.refuses_run`, `BinaryOp.refuses_run`, `Word.refuses_joinAll`: refusals that leave all as
  it was
* `Word.ends_combineTree`: words combined two at a time are of one circuit, or refused
* `Word.grown_of_refuses_combineTree`: gates that stay
-/

namespace IntCircuit

/-! ## Later states of a workspace -/

/-- The workspace `w₁` comes after the workspace `w`: it has the same circuits, each in a later
state. -/
structure Workspace.Grown (w w₁ : Workspace) : Prop where
  size : w₁.circuits.size = w.circuits.size
  circuit : ∀ (i : Nat) (c : Circuit), w.circuits[i]? = some c →
    ∃ d, w₁.circuits[i]? = some d ∧ c ≤ d

instance : Preorder Workspace where
  le := Workspace.Grown
  le_refl _ := ⟨rfl, fun _ c hc => ⟨c, hc, le_refl c⟩⟩
  le_trans _ _ _ h k := by
    refine ⟨k.size.trans h.size, fun i c hc => ?_⟩
    obtain ⟨d, hd, hcd⟩ := h.circuit i c hc
    obtain ⟨e, he, hde⟩ := k.circuit i d hd
    exact ⟨e, he, hcd.trans hde⟩

/-- A circuit is put back in a later state. -/
theorem Workspace.le_set {w : Workspace} {id : Nat} {c d : Circuit}
    (hc : w.circuits[id]? = some c) (h : c ≤ d) :
    w ≤ { w with circuits := w.circuits.setIfInBounds id d } := by
  refine ⟨Array.size_setIfInBounds, fun i e he => ?_⟩
  rw [Array.getElem?_setIfInBounds]
  by_cases hi : id = i
  · subst hi
    obtain rfl := Option.some.inj (hc.symm.trans he)
    rw [if_pos rfl, if_pos (Array.getElem?_eq_some_iff.mp hc).1]
    exact ⟨d, rfl, h⟩
  · rw [if_neg hi]
    exact ⟨e, he, le_refl e⟩

/-! ## Refusals -/

namespace Work

variable {α β : Type} {m : Work α} {f : α → Work β} {w w₁ w₂ : Workspace} {a : α} {size : Nat}
  {mid post weaker : α → Prop} {last : β → Prop}

/-- The operation is refused because two words are of different circuits, and `w₁` is what it
leaves. -/
def Refuses (m : Work α) (w w₁ : Workspace) : Prop :=
  ∃ left right, m.run.run w = (.error (.foreignWord left right), w₁)

/-- A refusal is the end. -/
protected theorem Refuses.bind (h : m.Refuses w w₁) : (m >>= f).Refuses w w₁ := by
  obtain ⟨left, right, h⟩ := h
  exact ⟨left, right, by rw [run_bind, h]⟩

/-- After an operation that was not refused, the next one decides. -/
theorem refuses_bind (hm : Runs m w a w₁) :
    (m >>= f).Refuses w w₂ ↔ (f a).Refuses w₁ w₂ := by
  rw [Runs] at hm
  rw [Refuses, Refuses, run_bind, hm]

/-- What is done to a result refuses nothing. -/
theorem refuses_map {g : α → β} :
    (m >>= fun a => pure (g a)).Refuses w w₁ ↔ m.Refuses w w₁ := by
  refine ⟨?_, Refuses.bind⟩
  rintro ⟨left, right, h⟩
  rw [run_bind] at h
  split at h
  next => cases h
  next hm =>
    cases h
    exact ⟨left, right, hm⟩

/-- In a workspace of this size at least, the operation ends as `post` says, or is refused. Either
way it leaves a later state of the workspace. -/
def Ends (size : Nat) (m : Work α) (post : α → Prop) : Prop :=
  ∀ w : Workspace, size ≤ w.circuits.size →
    ∃ w₁, w ≤ w₁ ∧ ((∃ a, Runs m w a w₁ ∧ post a) ∨ m.Refuses w w₁)

namespace Ends

protected theorem pure (h : post a) : Ends size (pure a) post :=
  fun w _ => ⟨w, le_refl w, .inl ⟨a, .pure a w, h⟩⟩

/-- One operation after another. -/
protected theorem bind (hm : Ends size m mid) (hf : ∀ a, mid a → Ends size (f a) last) :
    Ends size (m >>= f) last := by
  intro w hw
  obtain ⟨w₁, hle, ⟨a, hrun, ha⟩ | hrefuses⟩ := hm w hw
  · obtain ⟨w₂, hle', hend⟩ := hf a ha w₁ (hle.size ▸ hw)
    refine ⟨w₂, hle.trans hle', ?_⟩
    rcases hend with ⟨b, hrun', hb⟩ | hrefuses
    · exact .inl ⟨b, hrun.bind hrun', hb⟩
    · exact .inr ((refuses_bind hrun).mpr hrefuses)
  · exact ⟨w₁, hle, .inr hrefuses.bind⟩

protected theorem mono (h : Ends size m post) (himp : ∀ a, post a → weaker a) :
    Ends size m weaker := by
  intro w hw
  obtain ⟨w₁, hle, ⟨a, hrun, ha⟩ | hrefuses⟩ := h w hw
  · exact ⟨w₁, hle, .inl ⟨a, hrun, himp a ha⟩⟩
  · exact ⟨w₁, hle, .inr hrefuses⟩

/-- An operation that cannot end well is refused. -/
theorem refuses (h : Ends size m post) (hw : size ≤ w.circuits.size) (hnot : ∀ a, ¬post a) :
    ∃ w₁, m.Refuses w w₁ ∧ w ≤ w₁ := by
  obtain ⟨w₁, hle, ⟨a, -, ha⟩ | hrefuses⟩ := h w hw
  · exact (hnot a ha).elim
  · exact ⟨w₁, hrefuses, hle⟩

/-- A refusal loses nothing. -/
theorem le_of_refuses (h : Ends size m post) (hw : size ≤ w.circuits.size)
    (hrefuses : m.Refuses w w₁) : w ≤ w₁ := by
  obtain ⟨left, right, hrun⟩ := hrefuses
  obtain ⟨w₂, hle, ⟨a, hrun', -⟩ | ⟨_, _, hrun'⟩⟩ := h w hw
  · cases hrun'.symm.trans hrun
  · cases hrun'.symm.trans hrun
    exact hle

end Ends

end Work

/-! ## Two words -/

namespace Word

variable {x y : Word} {w : Workspace} {c : Circuit}

theorem refuses_requireSame (h : x.owner ≠ y.owner) (w : Workspace) :
    (requireSame x y).Refuses w w := by
  rw [requireSame, if_neg h]
  exact ⟨_, _, rfl⟩

theorem runs_requireSame (h : x.owner = y.owner) (w : Workspace) :
    Runs (requireSame x y) w () w := by
  rw [requireSame, if_pos h]
  exact .pure () w

theorem refuses_relation (op : Bits → Bits → Build Node) (h : x.owner ≠ y.owner) (w : Workspace) :
    (relation op x y).Refuses w w :=
  (refuses_requireSame h w).bind

theorem refuses_binary (op : Bits → Bits → Build Bits) (h : x.owner ≠ y.owner) (w : Workspace) :
    (binary op x y).Refuses w w :=
  (refuses_requireSame h w).bind

theorem runs_binary (op : Bits → Bits → Build Bits) (h : x.owner = y.owner)
    (hc : w.circuits[x.owner]? = some c) :
    Runs (binary op x y) w ⟨x.owner, ((op x.bits y.bits).run c).1⟩
      { w with circuits := w.circuits.setIfInBounds x.owner ((op x.bits y.bits).run c).2 } :=
  (runs_requireSame h w).bind ((Work.runs_build hc _).bind (.pure _ _))

end Word

theorem Relation.refuses_run (op : Relation) {x y : Word} (h : x.owner ≠ y.owner) (w : Workspace) :
    (op.run x y).Refuses w w := by
  cases op with
  | eq | ne | lt | le => exact Word.refuses_relation _ h w
  | gt | ge => exact Word.refuses_relation _ h.symm w

theorem BinaryOp.refuses_run (op : BinaryOp) {x y : Word} (h : x.owner ≠ y.owner) (w : Workspace) :
    (op.run x y).Refuses w w := by
  cases op <;> exact Word.refuses_binary _ h w

/-! ## Any number of words -/

namespace Word

variable {x y : Word} {w w₁ : Workspace} {c : Circuit} {size : Nat} {words others rest : List Word}

theorem refuses_joinAll (op : Connective) (h : ∃ y ∈ others, y.owner ≠ x.owner) (w : Workspace) :
    (joinAll op x others).Refuses w w := by
  have hall : (others.forM (requireSame x)).Refuses w w := by
    induction others with
    | nil =>
      obtain ⟨y, hy, -⟩ := h
      exact (List.not_mem_nil hy).elim
    | cons y rest ih =>
      by_cases hxy : x.owner = y.owner
      · refine (Work.refuses_bind (runs_requireSame hxy w)).mpr (ih ?_)
        obtain ⟨z, hz, hne⟩ := h
        rcases List.mem_cons.mp hz with rfl | hz
        · exact (hne hxy.symm).elim
        · exact ⟨z, hz, hne⟩
      · exact (refuses_requireSame hxy w).bind
  exact hall.bind

section CombineTree

variable (op : Bits → Bits → Build Bits)

/-- The first two words meet before any gate is made. -/
theorem refuses_combineTree (h : x.owner ≠ y.owner) (w : Workspace) :
    (combineTree (binary op) x (y :: rest)).Refuses w w :=
  (refuses_binary op h w).bind

variable {op} [∀ x y, Build.Grows (op x y)]

/-- Two words are of one circuit, and so is what they make, or they are refused. -/
theorem ends_binary (hx : x.owner < size) :
    Work.Ends size (binary op x y) fun z => x.owner = y.owner ∧ z.owner = x.owner := by
  intro w hw
  by_cases h : x.owner = y.owner
  · obtain ⟨c, hc⟩ : ∃ c, w.circuits[x.owner]? = some c :=
      ⟨_, Array.getElem?_eq_getElem (Nat.lt_of_lt_of_le hx hw)⟩
    exact ⟨_, Workspace.le_set hc (Build.Grows.grown c), .inl ⟨_, runs_binary op h hc, h, rfl⟩⟩
  · exact ⟨w, le_refl w, .inr (refuses_binary op h w)⟩

/-- What a level makes of words: no more words than there were, of circuits below `size`; if they
are all of one circuit, then so were the words before. -/
structure Levels (size : Nat) (words made : List Word) : Prop where
  length_le : made.length ≤ words.length
  owner_lt : ∀ z ∈ made, z.owner < size
  owner_eq : ∀ id, (∀ z ∈ made, z.owner = id) → ∀ x ∈ words, x.owner = id

/-- One more pair of words at the front. -/
theorem Levels.cons {made : List Word} {a b z : Word} (h : Levels size rest made)
    (hlt : a.owner < size) (hab : a.owner = b.owner) (hz : z.owner = a.owner) :
    Levels size (a :: b :: rest) (z :: made) := by
  refine ⟨?_, List.forall_mem_cons.mpr ⟨hz ▸ hlt, h.owner_lt⟩, fun id hid => ?_⟩
  · rw [List.length_cons, List.length_cons, List.length_cons]
    exact Nat.succ_le_succ (Nat.le_succ_of_le h.length_le)
  · obtain ⟨hfirst, hmade⟩ := List.forall_mem_cons.mp hid
    have ha : a.owner = id := hz.symm.trans hfirst
    exact List.forall_mem_cons.mpr
      ⟨ha, List.forall_mem_cons.mpr ⟨hab.symm.trans ha, h.owner_eq id hmade⟩⟩

/-- **One level**, two words at a time. -/
theorem ends_combinePairs (hwords : ∀ x ∈ words, x.owner < size) :
    Work.Ends size (combinePairs (binary op) words) (Levels size words) := by
  induction words using combinePairs.induct with
  | case1 a b rest ih =>
    obtain ⟨ha, htail⟩ := List.forall_mem_cons.mp hwords
    obtain ⟨-, hrest⟩ := List.forall_mem_cons.mp htail
    rw [combinePairs]
    refine (ends_binary ha).bind fun z hz => ?_
    exact (ih hrest).bind fun made hmade => .pure (hmade.cons ha hz.1 hz.2)
  | case2 rest hrest =>
    rw [combinePairs_eq_pure hrest]
    exact .pure ⟨Nat.le_refl _, hwords, fun _ h => h⟩

/-- All levels: if the words are not refused, they are of one circuit. -/
theorem ends_combineLevels {levels : Nat} (hlevels : others.length ≤ levels)
    (hx : x.owner < size) (hothers : ∀ y ∈ others, y.owner < size) :
    Work.Ends size (combineLevels (binary op) levels x others) fun _ =>
      ∀ y ∈ others, y.owner = x.owner := by
  induction levels generalizing x others with
  | zero =>
    obtain rfl := List.eq_nil_of_length_eq_zero (Nat.le_zero.mp hlevels)
    exact .pure fun _ h => (List.not_mem_nil h).elim
  | succ levels ih =>
    cases others with
    | nil => exact .pure fun _ h => (List.not_mem_nil h).elim
    | cons y rest =>
      obtain ⟨-, hrest⟩ := List.forall_mem_cons.mp hothers
      rw [combineLevels]
      refine (ends_binary hx).bind fun first hfirst => ?_
      obtain ⟨hxy, hfirst⟩ := hfirst
      refine (ends_combinePairs hrest).bind fun made hmade => ?_
      have hlength : made.length ≤ levels :=
        Nat.le_trans hmade.length_le (Nat.le_of_succ_le_succ hlevels)
      refine (ih hlength (hfirst ▸ hx) hmade.owner_lt).mono fun _ hsame => ?_
      -- all of the next level are of the circuit of the first two words
      rw [hfirst] at hsame
      exact List.forall_mem_cons.mpr ⟨hxy.symm, hmade.owner_eq x.owner hsame⟩

/-- **Words combined two at a time** are all of one circuit, or refused. -/
theorem ends_combineTree (hx : x.owner < size) (hothers : ∀ y ∈ others, y.owner < size) :
    Work.Ends size (combineTree (binary op) x others) fun _ => ∀ y ∈ others, y.owner = x.owner :=
  ends_combineLevels (Nat.le_refl _) hx hothers

/-- **Gates made for the first two words stay** when words after them are refused. -/
theorem grown_of_refuses_combineTree (hxy : x.owner = y.owner)
    (hc : w.circuits[x.owner]? = some c) (hrest : ∀ z ∈ rest, z.owner < w.circuits.size)
    (h : (combineTree (binary op) x (y :: rest)).Refuses w w₁) :
    ∃ d, w₁.circuits[x.owner]? = some d ∧ ((op x.bits y.bits).run c).2 ≤ d := by
  have hlt : x.owner < w.circuits.size := (Array.getElem?_eq_some_iff.mp hc).1
  rw [combineTree, List.length_cons, combineLevels, Work.refuses_bind (runs_binary op hxy hc)] at h
  have hend : Work.Ends w.circuits.size (combinePairs (binary op) rest >>= combineLevels (binary op)
      rest.length ⟨x.owner, ((op x.bits y.bits).run c).1⟩) fun _ => True := by
    refine (ends_combinePairs hrest).bind fun made hmade => ?_
    refine Work.Ends.mono (ends_combineLevels hmade.length_le ?_ hmade.owner_lt) fun _ _ => trivial
    exact hlt
  exact (hend.le_of_refuses (Nat.le_of_eq Array.size_setIfInBounds.symm) h).circuit _ _
    (Array.getElem?_setIfInBounds_self_of_lt hlt)

end CombineTree

end Word

end IntCircuit
