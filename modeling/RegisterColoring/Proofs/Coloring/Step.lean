import RegisterColoring.Round.Run

/-!
One step of the coloring pass. `Selects` lists the ways a color comes about, with everything that is
known about the color then; a step colors its node and touches neither the other colors nor what the
pass was given.
-/

namespace RegisterColoring

namespace Color

theorem extendedId?_eq_some_iff {c : Color} {id : Int32} :
    c.extendedId? = some id ↔ c = .extended id := by
  cases c <;> simp [extendedId?]

end Color

namespace Round

theorem resolved?_eq_some_iff {r : Round} {v : Value} {reg : Register} :
    r.resolved? v = some reg ↔
      ∃ index, r.color? v = some (.real index) ∧ (r.candidatesOf v)[index]? = some reg := by
  unfold resolved?
  cases r.color? v with
  | none => simp
  | some c => cases c <;> simp

theorem resolved?_congr {r s : Round} {v : Value} (color : s.color? v = r.color? v)
    (candidates : s.candidatesOf v = r.candidatesOf v) : s.resolved? v = r.resolved? v := by
  simp only [resolved?, color, candidates]

theorem mem_takenRegisters {r : Round} {v : Value} {reg : Register} :
    reg ∈ r.takenRegisters v ↔ ∃ n ∈ r.graph.neighbors v, r.resolved? n = some reg :=
  List.mem_filterMap

theorem mem_takenExtended {r : Round} {v : Value} {id : Int32} :
    id ∈ r.takenExtended v ↔ ∃ n ∈ r.graph.neighbors v, r.color? n = some (.extended id) := by
  simp [takenExtended, Option.bind_eq_some_iff, Color.extendedId?_eq_some_iff, FiniteSet.mem_def]

theorem mem_freeIndices {r : Round} {v : Value} {index : Nat} :
    index ∈ r.freeIndices v ↔
      ∃ reg, (r.candidatesOf v)[index]? = some reg ∧ reg ∉ r.takenRegisters v := by
  simp [freeIndices, List.mk_mem_zipIdx_iff_getElem?]

theorem freeIndices_eq_nil_iff {r : Round} {v : Value} :
    r.freeIndices v = [] ↔ ∀ reg ∈ r.candidatesOf v, reg ∈ r.takenRegisters v := by
  rw [List.eq_nil_iff_forall_not_mem]
  constructor
  · intro h reg hreg
    obtain ⟨index, hindex⟩ := List.mem_iff_getElem?.mp hreg
    apply Decidable.byContradiction
    intro hfree
    exact h index (mem_freeIndices.mpr ⟨reg, hindex, hfree⟩)
  · intro h index hfree
    obtain ⟨reg, hindex, hnot⟩ := mem_freeIndices.mp hfree
    exact hnot (h reg (List.mem_of_getElem? hindex))

theorem mem_freeExtended {r : Round} {v : Value} {id : Int32} :
    id ∈ r.freeExtended v ↔
      r.config.exhaustion = .extend ∧ id ∈ r.pool ∧ id ∉ r.takenExtended v := by
  cases h : r.config.exhaustion <;> simp [freeExtended, h]

theorem freeIndices_congr {r s : Round} {v : Value}
    (candidates : r.candidatesOf v = s.candidatesOf v)
    (taken : ∀ reg, reg ∈ r.takenRegisters v ↔ reg ∈ s.takenRegisters v) :
    r.freeIndices v = s.freeIndices v := by
  have hfree : (s.candidatesOf v).zipIdx.filter (fun c => decide (c.1 ∉ r.takenRegisters v)) =
      (s.candidatesOf v).zipIdx.filter (fun c => decide (c.1 ∉ s.takenRegisters v)) := by
    apply List.filter_congr
    intro c _
    exact decide_eq_decide.mpr (not_congr (taken c.1))
  rw [freeIndices, freeIndices, candidates, hfree]

theorem freeExtended_congr {r s : Round} {v w : Value}
    (exhaustion : r.config.exhaustion = s.config.exhaustion) (pool : r.pool = s.pool)
    (taken : ∀ id, id ∈ r.takenExtended v ↔ id ∈ s.takenExtended w) :
    r.freeExtended v = s.freeExtended w := by
  unfold freeExtended
  rw [exhaustion, pool]
  cases s.config.exhaustion with
  | spillAtOnce => rfl
  | extend =>
    apply List.filter_congr
    intro id _
    exact decide_eq_decide.mpr (not_congr (taken id))

/-- The ways a color comes about: a free candidate, an extended color that no neighbor holds, or a
new one. An extended color of either kind means that no candidate was free. -/
inductive Selects (r : Round) (v : Value) : Color → Round → Prop where
  | candidate (index : Nat) (reg : Register) (g : Generator)
      (place : (r.candidatesOf v)[index]? = some reg) (free : reg ∉ r.takenRegisters v) :
      Selects r v (.real index) { r with generator := g }
  | shared (id : Int32) (g : Generator) (exhausted : r.freeIndices v = [])
      (free : id ∈ r.freeExtended v) :
      Selects r v (.extended id) { r with generator := g }
  | created (exhausted : r.freeIndices v = []) (none : r.freeExtended v = []) :
      Selects r v (.extended r.nextExtended) r.createExtended.2

theorem selects_selectColor (r : Round) (v : Value) :
    r.Selects v (r.selectColor v).1 (r.selectColor v).2 := by
  unfold selectColor
  cases hfree : r.generator.pick? (r.freeIndices v) with
  | some choice =>
    obtain ⟨reg, place, free⟩ := mem_freeIndices.mp (Generator.mem_of_pick? hfree)
    exact .candidate choice.1 reg choice.2 place free
  | none =>
    have exhausted := Generator.pick?_eq_none_iff.mp hfree
    dsimp only
    cases hshared : r.generator.pick? (r.freeExtended v) with
    | some choice => exact .shared choice.1 choice.2 exhausted (Generator.mem_of_pick? hshared)
    | none => exact .created exhausted (Generator.pick?_eq_none_iff.mp hshared)

/-- A step for `v` in `r` and one for `w` in `s` have the same to choose from. -/
structure SameChoice (r s : Round) (v w : Value) : Prop where
  indices : r.freeIndices v = s.freeIndices w
  extended : r.freeExtended v = s.freeExtended w
  pool : r.pool = s.pool
  generator : r.generator = s.generator

/-- From the same choice comes the same color, and the same choice for the steps to come. -/
theorem SameChoice.selectColor {r s : Round} {v w : Value} (h : r.SameChoice s v w) :
    (r.selectColor v).1 = (s.selectColor w).1 ∧
      (r.selectColor v).2.pool = (s.selectColor w).2.pool ∧
      (r.selectColor v).2.generator = (s.selectColor w).2.generator := by
  have hnext : r.nextExtended = s.nextExtended := by simp only [nextExtended, h.pool]
  have hpool : r.pool ++ [r.nextExtended] = s.pool ++ [s.nextExtended] := by rw [h.pool, hnext]
  unfold Round.selectColor
  rw [h.generator, h.indices, h.extended]
  cases s.generator.pick? (s.freeIndices w) with
  | some choice => exact ⟨rfl, h.pool, rfl⟩
  | none =>
    dsimp only
    cases s.generator.pick? (s.freeExtended w) with
    | some choice => exact ⟨rfl, h.pool, rfl⟩
    | none => exact ⟨congrArg Color.extended hnext, hpool, h.generator⟩

/-- The choice itself changes the pool, the generator and the log only. -/
theorem Selects.frame {r s : Round} {v : Value} {c : Color} (h : r.Selects v c s) :
    s = { r with pool := s.pool, generator := s.generator, log := s.log } := by
  cases h <;> rfl

/-- Rounds that color the same problem: they may differ in colors, pool, generator and log. -/
structure SameProblem (r s : Round) : Prop where
  config : s.config = r.config
  graph : s.graph = r.graph
  weights : s.weights = r.weights
  candidates : s.candidates = r.candidates
  marked : s.marked = r.marked
  seed : s.seed = r.seed

namespace SameProblem

theorem refl (r : Round) : r.SameProblem r := ⟨rfl, rfl, rfl, rfl, rfl, rfl⟩

theorem trans {r s t : Round} (h : r.SameProblem s) (k : s.SameProblem t) : r.SameProblem t :=
  ⟨k.config.trans h.config, k.graph.trans h.graph, k.weights.trans h.weights,
    k.candidates.trans h.candidates, k.marked.trans h.marked, k.seed.trans h.seed⟩

theorem candidatesOf {r s : Round} (h : r.SameProblem s) (v : Value) :
    s.candidatesOf v = r.candidatesOf v := by
  simp only [Round.candidatesOf, h.candidates]

end SameProblem

theorem Selects.sameProblem {r s : Round} {v : Value} {c : Color} (h : r.Selects v c s) :
    r.SameProblem s := by
  cases h <;> exact ⟨rfl, rfl, rfl, rfl, rfl, rfl⟩

theorem Selects.colors {r s : Round} {v : Value} {c : Color} (h : r.Selects v c s) :
    s.colors = r.colors := by
  cases h <;> rfl

/-- A step gives an extended color exactly when every candidate is held by a neighbor. -/
theorem selectColor_isExtended_iff (r : Round) (v : Value) :
    (∃ id, (r.selectColor v).1 = .extended id) ↔ r.freeIndices v = [] := by
  have h := r.selects_selectColor v
  generalize r.selectColor v = choice at h
  obtain ⟨c, s⟩ := choice
  cases h with
  | candidate index reg g place free =>
    refine iff_of_false (by simp) ?_
    exact List.ne_nil_of_mem (mem_freeIndices.mpr ⟨reg, place, free⟩)
  | shared id g exhausted free => exact iff_of_true ⟨id, rfl⟩ exhausted
  | created exhausted none => exact iff_of_true ⟨_, rfl⟩ exhausted

theorem colorNode_sameProblem (r : Round) (v : Value) : r.SameProblem (r.colorNode v) := by
  obtain ⟨h₁, h₂, h₃, h₄, h₅, h₆⟩ := (r.selects_selectColor v).sameProblem
  exact ⟨h₁, h₂, h₃, h₄, h₅, h₆⟩

theorem color?_colorNode (r : Round) (v w : Value) :
    (r.colorNode v).color? w = if w = v then some (r.selectColor v).1 else r.color? w := by
  have h : (r.colorNode v).color? w =
      ((r.selectColor v).2.colors.insert v (r.selectColor v).1).get? w := rfl
  rw [h, FiniteMap.get?_insert, (r.selects_selectColor v).colors]
  rfl

theorem color?_colorNode_self (r : Round) (v : Value) :
    (r.colorNode v).color? v = some (r.selectColor v).1 := by
  rw [color?_colorNode, if_pos rfl]

theorem color?_colorNode_of_ne (r : Round) {v w : Value} (h : w ≠ v) :
    (r.colorNode v).color? w = r.color? w := by
  rw [color?_colorNode, if_neg h]

theorem resolved?_colorNode_of_ne (r : Round) {v w : Value} (h : w ≠ v) :
    (r.colorNode v).resolved? w = r.resolved? w :=
  resolved?_congr (r.color?_colorNode_of_ne h) ((r.colorNode_sameProblem v).candidatesOf w)

theorem pool_colorNode (r : Round) (v : Value) :
    (r.colorNode v).pool = (r.selectColor v).2.pool := rfl

/-- A step extends the pool by at most one color, and then its node holds it. -/
theorem pool_colorNode_cases (r : Round) (v : Value) :
    (r.colorNode v).pool = r.pool ∨
      ((r.colorNode v).pool = r.pool ++ [r.nextExtended] ∧
        (r.colorNode v).color? v = some (.extended r.nextExtended)) := by
  rw [pool_colorNode, color?_colorNode_self]
  have h := r.selects_selectColor v
  generalize r.selectColor v = choice at h
  obtain ⟨c, s⟩ := choice
  cases h with
  | candidate index reg g place free => exact .inl rfl
  | shared id g exhausted free => exact .inl rfl
  | created exhausted none => exact .inr ⟨rfl, rfl⟩

theorem colorAll_sameProblem (r : Round) (vs : List Value) : r.SameProblem (r.colorAll vs) := by
  induction vs generalizing r with
  | nil => exact .refl r
  | cons v vs ih => exact (r.colorNode_sameProblem v).trans (ih (r.colorNode v))

theorem colorAll_concat (r : Round) (vs : List Value) (v : Value) :
    r.colorAll (vs ++ [v]) = (r.colorAll vs).colorNode v := colorAll_append r vs [v]

end Round

end RegisterColoring
