import RegisterColoring.Proofs.Coloring.Step
import RegisterColoring.Proofs.Graph.Consistency

/-!
What the coloring pass keeps true after every step. Neighbors that hold registers hold different
ones, whatever their lists of candidates; neighbors with extended colors have different ones; and
where no extended color is shared, no two values have the same. The last two rest on the freshness
of new extended colors, hence on the number of ids below zero.
-/

namespace RegisterColoring

/-- The number of ids below zero. -/
def idCount : Nat := 2147483648

/-- The first `k` ids in the order they are created in. -/
def extendedIds (k : Nat) : List Int32 :=
  (List.range k).map fun i : Nat => .ofInt (-((i : Int) + 1))

theorem extendedIds_succ (k : Nat) :
    extendedIds (k + 1) = extendedIds k ++ [.ofInt (-((k : Int) + 1))] := by
  simp [extendedIds, List.range_succ]

@[simp] theorem length_extendedIds (k : Nat) : (extendedIds k).length = k := by
  simp [extendedIds]

theorem ofInt_not_mem_extendedIds {k : Nat} (h : k < idCount) :
    .ofInt (-((k : Int) + 1)) ∉ extendedIds k := by
  intro hmem
  obtain ⟨i, hi, heq⟩ := List.mem_map.mp hmem
  have hik := List.mem_range.mp hi
  have htoInt := congrArg Int32.toInt heq
  unfold idCount at h
  rw [Int32.toInt_ofInt_of_le (by omega) (by omega),
    Int32.toInt_ofInt_of_le (by omega) (by omega)] at htoInt
  omega

namespace Round

/-- Nothing is colored yet. -/
structure Uncolored (r : Round) : Prop where
  colors : r.colors = ∅
  pool : r.pool = []

theorem Uncolored.color?_eq {r : Round} (h : r.Uncolored) (v : Value) : r.color? v = none := by
  rw [color?, h.colors]
  rfl

theorem Uncolored.resolved?_eq {r : Round} (h : r.Uncolored) (v : Value) :
    r.resolved? v = none := by
  rw [resolved?, h.color?_eq]

/-- Registers are compared, and not the places in the lists of candidates they were taken from. -/
structure RegistersApart (r : Round) : Prop where
  placed : ∀ v index, r.color? v = some (.real index) → index < (r.candidatesOf v).length
  apart : ∀ u v, r.graph.interferes u v = true → ∀ reg, r.resolved? u = some reg →
    r.resolved? v ≠ some reg

structure ExtendedApart (r : Round) : Prop where
  ids : r.pool = extendedIds r.pool.length
  pooled : ∀ v id, r.color? v = some (.extended id) → id ∈ r.pool
  apart : ∀ u v, r.graph.interferes u v = true → ∀ id, r.color? u = some (.extended id) →
    r.color? v ≠ some (.extended id)
  alone : r.config.exhaustion = .spillAtOnce → ∀ u v, u ≠ v → ∀ id,
    r.color? u = some (.extended id) → r.color? v ≠ some (.extended id)

theorem RegistersApart.of_uncolored {r : Round} (h : r.Uncolored) : r.RegistersApart := by
  constructor
  · intro v index hv
    rw [h.color?_eq] at hv
    cases hv
  · intro u v _ reg hu
    rw [h.resolved?_eq] at hu
    cases hu

theorem ExtendedApart.of_uncolored {r : Round} (h : r.Uncolored) : r.ExtendedApart := by
  have hnone : ∀ v id, r.color? v ≠ some (.extended id) := by
    intro v id hv
    rw [h.color?_eq] at hv
    cases hv
  constructor
  · rw [h.pool]
    rfl
  · exact fun v id hv => absurd hv (hnone v id)
  · exact fun u v _ id hu => absurd hu (hnone u id)
  · exact fun _ u v _ id hu => absurd hu (hnone u id)

theorem RegistersApart.resolved {r : Round} (h : r.RegistersApart) {v : Value} {index : Nat}
    (hv : r.color? v = some (.real index)) : ∃ reg, r.resolved? v = some reg := by
  obtain ⟨reg, hreg⟩ : ∃ reg, (r.candidatesOf v)[index]? = some reg :=
    ⟨_, List.getElem?_eq_getElem (h.placed v index hv)⟩
  exact ⟨reg, resolved?_eq_some_iff.mpr ⟨index, hv, hreg⟩⟩

/-- The node of a step takes a place in its own list, and a register that no neighbor holds. -/
theorem colorNode_real {r : Round} {v : Value} {index : Nat}
    (h : (r.colorNode v).color? v = some (.real index)) :
    ∃ reg, (r.candidatesOf v)[index]? = some reg ∧ reg ∉ r.takenRegisters v := by
  rw [color?_colorNode_self] at h
  have hsel := r.selects_selectColor v
  rw [Option.some.inj h] at hsel
  generalize (r.selectColor v).2 = s at hsel
  cases hsel with
  | candidate _ reg g place free => exact ⟨reg, place, free⟩

theorem RegistersApart.colorNode {r : Round} (consistent : r.graph.Consistent)
    (h : r.RegistersApart) (v : Value) : (r.colorNode v).RegistersApart := by
  have same := r.colorNode_sameProblem v
  -- the new register of `v` against a neighbor, whose register was there before the step
  have fresh : ∀ w, r.graph.interferes v w = true → ∀ reg,
      (r.colorNode v).resolved? v = some reg → (r.colorNode v).resolved? w ≠ some reg := by
    intro w hvw reg hv hw
    rw [resolved?_colorNode_of_ne r (consistent.ne_of_interferes hvw).symm] at hw
    obtain ⟨index, hcolor, hplace⟩ := resolved?_eq_some_iff.mp hv
    obtain ⟨reg', hplace', hfree⟩ := colorNode_real hcolor
    rw [same.candidatesOf, hplace'] at hplace
    obtain rfl := Option.some.inj hplace
    exact hfree (mem_takenRegisters.mpr ⟨w, (consistent.mem_neighbors v w).mpr hvw, hw⟩)
  constructor
  · intro w index hw
    rw [same.candidatesOf]
    by_cases hwv : w = v
    · subst hwv
      obtain ⟨reg, hplace, _⟩ := colorNode_real hw
      exact (List.getElem?_eq_some_iff.mp hplace).1
    · rw [color?_colorNode_of_ne r hwv] at hw
      exact h.placed w index hw
  · intro u w huw reg hu hw
    rw [same.graph] at huw
    by_cases huv : u = v
    · subst huv
      exact fresh w huw reg hu hw
    by_cases hwv : w = v
    · subst hwv
      rw [Graph.interferes_comm] at huw
      exact fresh u huw reg hw hu
    rw [resolved?_colorNode_of_ne r huv] at hu
    rw [resolved?_colorNode_of_ne r hwv] at hw
    exact h.apart u w huw reg hu hw

theorem RegistersApart.colorAll {r : Round} (consistent : r.graph.Consistent)
    (h : r.RegistersApart) (vs : List Value) : (r.colorAll vs).RegistersApart := by
  induction vs generalizing r with
  | nil => exact h
  | cons v vs ih =>
    have same := r.colorNode_sameProblem v
    exact ih (same.graph.symm ▸ consistent) (h.colorNode consistent v)

theorem nextExtended_eq {r : Round} {k : Nat} (h : r.pool = extendedIds k) :
    r.nextExtended = .ofInt (-((k : Int) + 1)) := by
  rw [nextExtended, h]
  cases k with
  | zero => rfl
  | succ k =>
    rw [extendedIds_succ, List.getLast?_concat]
    dsimp only
    rw [show (1 : Int32) = .ofInt 1 from rfl, ← Int32.ofInt_sub]
    congr 1

theorem ExtendedApart.nextExtended_not_mem {r : Round} (h : r.ExtendedApart)
    (room : r.pool.length < idCount) : r.nextExtended ∉ r.pool := by
  have hnew : r.nextExtended ∉ extendedIds r.pool.length := by
    rw [nextExtended_eq h.ids]
    exact ofInt_not_mem_extendedIds room
  rwa [← h.ids] at hnew

/-- What is known of an extended color that a step gives: a neighbor does not hold it, and where
extended colors are not shared, nobody does. -/
theorem ExtendedApart.fresh {r : Round} (h : r.ExtendedApart) (room : r.pool.length < idCount)
    {v : Value} {id : Int32} (hid : (r.colorNode v).color? v = some (.extended id)) :
    id ∈ (r.colorNode v).pool ∧ id ∉ r.takenExtended v ∧
      (r.config.exhaustion = .spillAtOnce → ∀ w, r.color? w ≠ some (.extended id)) := by
  rw [color?_colorNode_self] at hid
  rw [pool_colorNode]
  have hsel := r.selects_selectColor v
  rw [Option.some.inj hid] at hsel
  generalize (r.selectColor v).2 = s at hsel
  cases hsel with
  | shared _ g exhausted free =>
    obtain ⟨hext, hpool, htaken⟩ := mem_freeExtended.mp free
    refine ⟨hpool, htaken, ?_⟩
    intro halone
    rw [hext] at halone
    cases halone
  | created exhausted none =>
    have hnew := h.nextExtended_not_mem room
    refine ⟨List.mem_append_right _ List.mem_cons_self, ?_, ?_⟩
    · intro htaken
      obtain ⟨n, _, hn⟩ := mem_takenExtended.mp htaken
      exact hnew (h.pooled n _ hn)
    · intro _ w hw
      exact hnew (h.pooled w _ hw)

theorem ExtendedApart.colorNode {r : Round} (consistent : r.graph.Consistent)
    (h : r.ExtendedApart) (room : r.pool.length < idCount) (v : Value) :
    (r.colorNode v).ExtendedApart := by
  have same := r.colorNode_sameProblem v
  have grows : ∀ id ∈ r.pool, id ∈ (r.colorNode v).pool := by
    intro id hid
    rcases r.pool_colorNode_cases v with hpool | ⟨hpool, _⟩ <;> rw [hpool]
    · exact hid
    · exact List.mem_append_left _ hid
  constructor
  · rcases r.pool_colorNode_cases v with hpool | ⟨hpool, _⟩ <;> rw [hpool]
    · exact h.ids
    · rw [List.length_append, List.length_singleton, extendedIds_succ, ← h.ids,
        nextExtended_eq h.ids]
  · intro w id hw
    by_cases hwv : w = v
    · subst hwv
      exact (h.fresh room hw).1
    · rw [color?_colorNode_of_ne r hwv] at hw
      exact grows id (h.pooled w id hw)
  · intro u w huw id hu hw
    rw [same.graph] at huw
    have hne := consistent.ne_of_interferes huw
    by_cases huv : u = v
    · subst huv
      rw [color?_colorNode_of_ne r hne.symm] at hw
      exact (h.fresh room hu).2.1
        (mem_takenExtended.mpr ⟨w, (consistent.mem_neighbors u w).mpr huw, hw⟩)
    by_cases hwv : w = v
    · subst hwv
      rw [Graph.interferes_comm] at huw
      rw [color?_colorNode_of_ne r hne] at hu
      exact (h.fresh room hw).2.1
        (mem_takenExtended.mpr ⟨u, (consistent.mem_neighbors w u).mpr huw, hu⟩)
    rw [color?_colorNode_of_ne r huv] at hu
    rw [color?_colorNode_of_ne r hwv] at hw
    exact h.apart u w huw id hu hw
  · intro halone u w hne id hu hw
    rw [same.config] at halone
    by_cases huv : u = v
    · subst huv
      rw [color?_colorNode_of_ne r hne.symm] at hw
      exact (h.fresh room hu).2.2 halone w hw
    by_cases hwv : w = v
    · subst hwv
      rw [color?_colorNode_of_ne r hne] at hu
      exact (h.fresh room hw).2.2 halone u hu
    rw [color?_colorNode_of_ne r huv] at hu
    rw [color?_colorNode_of_ne r hwv] at hw
    exact h.alone halone u w hne id hu hw

theorem length_pool_colorNode_le (r : Round) (v : Value) :
    (r.colorNode v).pool.length ≤ r.pool.length + 1 := by
  rcases r.pool_colorNode_cases v with h | ⟨h, _⟩ <;> rw [h]
  · exact Nat.le_succ _
  · simp

theorem ExtendedApart.colorAll {r : Round} (consistent : r.graph.Consistent)
    (h : r.ExtendedApart) {vs : List Value} (room : r.pool.length + vs.length ≤ idCount) :
    (r.colorAll vs).ExtendedApart := by
  induction vs generalizing r with
  | nil => exact h
  | cons v vs ih =>
    have same := r.colorNode_sameProblem v
    have hlength := r.length_pool_colorNode_le v
    rw [List.length_cons] at room
    exact ih (same.graph.symm ▸ consistent) (h.colorNode consistent (by omega) v) (by omega)

theorem color?_colorAll_of_not_mem (r : Round) {vs : List Value} {w : Value} (h : w ∉ vs) :
    (r.colorAll vs).color? w = r.color? w := by
  induction vs generalizing r with
  | nil => rfl
  | cons v vs ih =>
    obtain ⟨hwv, hw⟩ := not_or.mp (mt List.mem_cons.mpr h)
    rw [colorAll_cons, ih _ hw, color?_colorNode_of_ne r hwv]

theorem colored_of_mem (r : Round) {vs : List Value} {w : Value} (h : w ∈ vs) :
    ∃ c, (r.colorAll vs).color? w = some c := by
  induction vs generalizing r with
  | nil => cases h
  | cons v vs ih =>
    by_cases hw : w ∈ vs
    · exact ih _ hw
    · obtain rfl := (List.mem_cons.mp h).resolve_right hw
      exact ⟨_, (color?_colorAll_of_not_mem _ hw).trans (color?_colorNode_self r w)⟩

/-- Every color means something, and no two neighbors are in each other's way. -/
structure ProperlyColored (r : Round) : Prop extends r.RegistersApart where
  resolved : ∀ v index, r.color? v = some (.real index) → ∃ reg, r.resolved? v = some reg
  extended : r.ExtendedApart

/-- Every step of a coloring pass keeps the colors proper. The pass may start with any graph that
was built edge by edge and may take the nodes in any order, also more than once. -/
theorem coloring_stays_proper (r : Round) (edits : List Graph.Edit) (order done : List Value)
    (built : r.graph = .ofEdits edits) (uncolored : r.Uncolored)
    (bound : order.length ≤ idCount) (begun : done <+: order) :
    (∀ v ∈ done, ∃ c, (r.colorAll done).color? v = some c) ∧
      (r.colorAll done).ProperlyColored ∧ r.SameProblem (r.colorAll done) := by
  have consistent : r.graph.Consistent := built ▸ .ofEdits edits
  have room : r.pool.length + done.length ≤ idCount := by
    rw [uncolored.pool, List.length_nil, Nat.zero_add]
    exact Nat.le_trans begun.length_le bound
  have registers := (RegistersApart.of_uncolored uncolored).colorAll consistent done
  have extended := (ExtendedApart.of_uncolored uncolored).colorAll consistent room
  exact ⟨fun v hv => r.colored_of_mem hv,
    ⟨registers, fun v index hv => registers.resolved hv, extended⟩, r.colorAll_sameProblem done⟩

/-- Three values in each other's way, with two registers between them. -/
def triangle : Round :=
  { new .default with
    graph := .ofEdits [.addEdge ⟨0⟩ ⟨1⟩, .addNode ⟨0⟩, .addEdge ⟨2⟩ ⟨1⟩, .addEdge ⟨2⟩ ⟨0⟩]
    candidates := .ofList [(⟨0⟩, [⟨0⟩, ⟨1⟩]), (⟨1⟩, [⟨1⟩]), (⟨2⟩, [⟨0⟩, ⟨1⟩])] }

theorem triangle_stays_proper :
    triangle.Uncolored ∧ ([⟨2⟩, ⟨0⟩, ⟨2⟩, ⟨1⟩] : List Value).length ≤ idCount ∧
      (∀ v ∈ [⟨2⟩, ⟨0⟩, ⟨2⟩], ∃ c, (triangle.colorAll [⟨2⟩, ⟨0⟩, ⟨2⟩]).color? v = some c) ∧
      (triangle.colorAll [⟨2⟩, ⟨0⟩, ⟨2⟩]).ProperlyColored ∧
      triangle.SameProblem (triangle.colorAll [⟨2⟩, ⟨0⟩, ⟨2⟩]) :=
  ⟨⟨rfl, rfl⟩, by decide,
    coloring_stays_proper triangle _ [⟨2⟩, ⟨0⟩, ⟨2⟩, ⟨1⟩] _ rfl ⟨rfl, rfl⟩ (by decide)
      ⟨[⟨1⟩], rfl⟩⟩

end Round

/-!
The coloring pass never looks ahead. While it colors the nodes of a list, every colored neighbor of
a node is itself in the list, so two rounds that agree on the list go through it in step, whatever
else they hold; and what comes after the list leaves its colors alone.
-/

namespace Round

variable {p : List Value} {r s : Round}

/-- Rounds that pose one problem on the values of `p`, and any two problems elsewhere. -/
structure SamePart (p : List Value) (r s : Round) : Prop where
  exhaustion : r.config.exhaustion = s.config.exhaustion
  candidates : ∀ v ∈ p, r.candidatesOf v = s.candidatesOf v
  adjacent : ∀ u ∈ p, ∀ v ∈ p, v ∈ r.graph.neighbors u ↔ v ∈ s.graph.neighbors u

/-- Rounds that have come equally far in `p`, and no further. -/
structure Lockstep (p : List Value) (r s : Round) : Prop extends SamePart p r s where
  inside : ∀ v c, r.color? v = some c → v ∈ p
  colors : ∀ v, r.color? v = s.color? v
  pool : r.pool = s.pool
  generator : r.generator = s.generator

theorem SamePart.of_sameProblem {r' s' : Round} (part : SamePart p r s) (left : r.SameProblem r')
    (right : s.SameProblem s') : SamePart p r' s' where
  exhaustion := by rw [left.config, right.config, part.exhaustion]
  candidates v hv := by rw [left.candidatesOf, right.candidatesOf, part.candidates v hv]
  adjacent u hu v hv := by rw [left.graph, right.graph, part.adjacent u hu v hv]

theorem SamePart.lockstep (part : SamePart p r s) (generator : r.generator = s.generator)
    (left : r.Uncolored) (right : s.Uncolored) : Lockstep p r s where
  toSamePart := part
  inside v c h := by
    rw [left.color?_eq] at h
    cases h
  colors v := by rw [left.color?_eq, right.color?_eq]
  pool := by rw [left.pool, right.pool]
  generator := generator

namespace Lockstep

theorem symm (h : Lockstep p r s) : Lockstep p s r where
  exhaustion := h.exhaustion.symm
  candidates v hv := (h.candidates v hv).symm
  adjacent u hu v hv := (h.adjacent u hu v hv).symm
  inside v c hc := h.inside v c ((h.colors v).trans hc)
  colors v := (h.colors v).symm
  pool := h.pool.symm
  generator := h.generator.symm

theorem resolved? (h : Lockstep p r s) {v : Value} (hv : v ∈ p) : r.resolved? v = s.resolved? v :=
  resolved?_congr (h.colors v) (h.candidates v hv)

/-- A neighbor that holds a register has a color, hence lies in `p`, where both rounds know it. -/
theorem mem_takenRegisters (h : Lockstep p r s) {v : Value} (hv : v ∈ p) {reg : Register}
    (taken : reg ∈ r.takenRegisters v) : reg ∈ s.takenRegisters v := by
  obtain ⟨n, hn, hres⟩ := Round.mem_takenRegisters.mp taken
  obtain ⟨index, hcolor, _⟩ := resolved?_eq_some_iff.mp hres
  have hnp := h.inside n _ hcolor
  rw [h.adjacent v hv n hnp] at hn
  rw [h.resolved? hnp] at hres
  exact Round.mem_takenRegisters.mpr ⟨n, hn, hres⟩

theorem mem_takenExtended (h : Lockstep p r s) {v : Value} (hv : v ∈ p) {id : Int32}
    (taken : id ∈ r.takenExtended v) : id ∈ s.takenExtended v := by
  obtain ⟨n, hn, hcolor⟩ := Round.mem_takenExtended.mp taken
  rw [h.adjacent v hv n (h.inside n _ hcolor)] at hn
  rw [h.colors n] at hcolor
  exact Round.mem_takenExtended.mpr ⟨n, hn, hcolor⟩

theorem sameChoice (h : Lockstep p r s) {v : Value} (hv : v ∈ p) : r.SameChoice s v v where
  indices := freeIndices_congr (h.candidates v hv) fun _ =>
    ⟨h.mem_takenRegisters hv, h.symm.mem_takenRegisters hv⟩
  extended := freeExtended_congr h.exhaustion h.pool fun _ =>
    ⟨h.mem_takenExtended hv, h.symm.mem_takenExtended hv⟩
  pool := h.pool
  generator := h.generator

theorem colorNode (h : Lockstep p r s) {v : Value} (hv : v ∈ p) :
    Lockstep p (r.colorNode v) (s.colorNode v) := by
  obtain ⟨hcolor, hpool, hgenerator⟩ := (h.sameChoice hv).selectColor
  refine ⟨h.of_sameProblem (r.colorNode_sameProblem v) (s.colorNode_sameProblem v), ?_, ?_,
    hpool, hgenerator⟩
  · intro w c hc
    by_cases hw : w = v
    · exact hw ▸ hv
    · rw [color?_colorNode_of_ne r hw] at hc
      exact h.inside w c hc
  · intro w
    rw [color?_colorNode, color?_colorNode, hcolor, h.colors w]

theorem colorAll (h : Lockstep p r s) {vs : List Value} (within : ∀ v ∈ vs, v ∈ p) :
    Lockstep p (r.colorAll vs) (s.colorAll vs) := by
  induction vs generalizing r s with
  | nil => exact h
  | cons v vs ih =>
    obtain ⟨hv, hvs⟩ := List.forall_mem_cons.mp within
    exact ih (h.colorNode hv) hvs

end Lockstep

/-- The colors of the nodes in `p` depend on these nodes alone. The nodes that come after `p` may
differ in number, order, candidates and neighbors. -/
theorem coloring_looks_back_only (p : List Value) (r s : Round) (part : SamePart p r s)
    (generator : r.generator = s.generator) (left : r.Uncolored) (right : s.Uncolored) :
    (∀ rest rest' : List Value, (∀ v ∈ rest, v ∉ p) → (∀ v ∈ rest', v ∉ p) →
      ∀ v ∈ p, ∃ c, ((r.colorAll p).colorAll rest).color? v = some c ∧
        ((s.colorAll p).colorAll rest').color? v = some c) ∧
      (r.colorAll p).pool = (s.colorAll p).pool ∧
      (r.colorAll p).generator = (s.colorAll p).generator := by
  have after := (part.lockstep generator left right).colorAll fun _ hv => hv
  refine ⟨?_, after.pool, after.generator⟩
  intro rest rest' later later' v hv
  obtain ⟨c, hc⟩ := colored_of_mem r hv
  refine ⟨c, ?_, ?_⟩
  · rw [color?_colorAll_of_not_mem _ fun h => later v h hv, hc]
  · rw [color?_colorAll_of_not_mem _ fun h => later' v h hv, ← after.colors v, hc]

/-- The triangle with another candidate for its last node, and with two nodes more. -/
def widened : Round :=
  { triangle with
    graph := .ofEdits [.addEdge ⟨2⟩ ⟨0⟩, .addEdge ⟨3⟩ ⟨0⟩, .addEdge ⟨4⟩ ⟨2⟩, .addEdge ⟨3⟩ ⟨4⟩]
    candidates := .ofList [(⟨2⟩, [⟨0⟩, ⟨1⟩]), (⟨0⟩, [⟨0⟩, ⟨1⟩]), (⟨1⟩, [⟨7⟩]), (⟨3⟩, [⟨1⟩])] }

theorem widened_samePart : SamePart [⟨2⟩, ⟨0⟩] triangle widened where
  exhaustion := rfl
  candidates := by decide +kernel
  adjacent := by decide +kernel

theorem widened_colors_alike :
    (∀ v ∈ ([⟨2⟩, ⟨0⟩] : List Value), ∃ c,
      ((triangle.colorAll [⟨2⟩, ⟨0⟩]).colorAll [⟨1⟩]).color? v = some c ∧
        ((widened.colorAll [⟨2⟩, ⟨0⟩]).colorAll [⟨4⟩, ⟨3⟩]).color? v = some c) ∧
      (⟨1⟩ ∈ triangle.graph.neighbors ⟨2⟩ ∧ ⟨1⟩ ∉ widened.graph.neighbors ⟨2⟩) ∧
      (triangle.colorAll [⟨2⟩, ⟨0⟩]).generator = (widened.colorAll [⟨2⟩, ⟨0⟩]).generator := by
  obtain ⟨hcolors, _, hgenerator⟩ := coloring_looks_back_only [⟨2⟩, ⟨0⟩] triangle widened
    widened_samePart rfl ⟨rfl, rfl⟩ ⟨rfl, rfl⟩
  exact ⟨hcolors [⟨1⟩] [⟨4⟩, ⟨3⟩] (by decide) (by decide), by decide +kernel, hgenerator⟩

end Round

end RegisterColoring
