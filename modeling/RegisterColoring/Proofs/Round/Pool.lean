import RegisterColoring.Proofs.Round.Soundness

/-!
How many extended colors a run creates. When they are shared, the node that got the newest one has
a neighbor for each of its candidates and for each older color, so the degrees bound their number.
When they are not, they are as many as the nodes without a register.
-/

namespace RegisterColoring

namespace Round

/-- What the pool of a finished coloring pass stands for. -/
structure PoolAccounted (r : Round) : Prop where
  held : ∀ id ∈ r.pool, ∃ v ∈ r.graph.nodes, r.color? v = some (.extended id)
  crowded : r.config.exhaustion = .extend → r.pool ≠ [] → ∃ v ∈ r.graph.nodes, r.CrowdedOut v ∧
    r.pool.length + (r.candidatesOf v).length ≤ r.graph.degree v + 1
  bounded : r.config.exhaustion = .extend → ∀ bound, (∀ v ∈ r.graph.nodes,
    r.graph.degree v ≤ bound) → r.pool.length ≤ bound
  counted : r.config.exhaustion = .spillAtOnce → r.pool.length =
    r.graph.nodes.elems.countP fun v => (r.resolved? v).isNone

variable {r : Round} {p : Procedure} {drawn : UInt64}

theorem nodup_pool_run (reached : (r.load p drawn).candidateFault? p.candidates = none)
    (room : (r.load p drawn).graph.nodeCount ≤ idCount) : (r.run p drawn).2.pool.Nodup := by
  obtain ⟨log, hrun⟩ := run_of_reached reached
  have horder : (r.load p drawn).graph.byDegree.length ≤ idCount := by
    rw [(Graph.byDegree_perm _).length_eq]
    exact room
  rw [hrun]
  exact nodup_pool_colorAll load_uncolored horder

theorem exists_crowdedOut_run (reached : (r.load p drawn).candidateFault? p.candidates = none)
    (room : (r.load p drawn).graph.nodeCount ≤ idCount)
    (shared : (r.run p drawn).2.config.exhaustion = .extend) (h : (r.run p drawn).2.pool ≠ []) :
    ∃ v ∈ (r.run p drawn).2.graph.nodes, (r.run p drawn).2.CrowdedOut v ∧
      (r.run p drawn).2.pool.length + ((r.run p drawn).2.candidatesOf v).length ≤
        (r.run p drawn).2.graph.degree v + 1 := by
  have same := r.run_sameProblem p drawn
  have hnodup := nodup_pool_run reached room
  have hlisted := (spillsJustified_run reached).listed
  have hconsistent : (r.run p drawn).2.graph.Consistent := same.graph ▸ load_consistent
  obtain ⟨v, hv, hcrowded⟩ : ∃ v ∈ (r.run p drawn).2.graph.nodes,
      (r.run p drawn).2.CrowdedOut v := by
    rw [same.graph]
    rw [same.config] at shared
    obtain ⟨log, hrun⟩ := run_of_reached reached
    rw [hrun] at h ⊢
    obtain ⟨v, hv, hcrowded⟩ := exists_crowdedOut load_uncolored shared
      (r.load p drawn).graph.byDegree_pairwise h
    exact ⟨v, Graph.mem_byDegree.mp hv,
      ⟨hcrowded.color, hcrowded.registers, hcrowded.extended⟩⟩
  refine ⟨v, hv, hcrowded, ?_⟩
  rw [hconsistent.degree_eq]
  exact hcrowded.length_le (nodup_of_strict (hlisted v hv).2.1) hnodup

/-- A node of a finished pass that holds no register has an extended color. -/
theorem resolved?_isNone_iff (reached : (r.load p drawn).candidateFault? p.candidates = none)
    {v : Value} (hv : v ∈ (r.run p drawn).2.graph.nodes) :
    ((r.run p drawn).2.resolved? v).isNone = true ↔
      ((r.run p drawn).2.color? v).any Color.isExtended = true := by
  obtain ⟨c, hc⟩ := colored_run reached hv
  cases c with
  | real index =>
    obtain ⟨reg, hreg⟩ := (registersApart_run reached).resolved hc
    simp [hc, hreg, Color.isExtended, Color.extendedId?]
  | extended id => simp [resolved?, hc, Color.isExtended, Color.extendedId?]

theorem length_pool_run (reached : (r.load p drawn).candidateFault? p.candidates = none)
    (alone : (r.run p drawn).2.config.exhaustion = .spillAtOnce) :
    (r.run p drawn).2.pool.length =
      (r.run p drawn).2.graph.nodes.elems.countP fun v =>
        ((r.run p drawn).2.resolved? v).isNone := by
  have same := r.run_sameProblem p drawn
  have hextended : ((r.run p drawn).2.graph.nodes.elems.countP fun v =>
      ((r.run p drawn).2.resolved? v).isNone) =
      (r.run p drawn).2.graph.nodes.elems.countP fun v =>
        ((r.run p drawn).2.color? v).any Color.isExtended :=
    List.countP_congr fun v hv => resolved?_isNone_iff reached hv
  rw [same.config] at alone
  rw [hextended, same.graph, ← (Graph.byDegree_perm _).countP_eq]
  obtain ⟨log, hrun⟩ := run_of_reached reached
  rw [hrun]
  exact length_pool_colorAll load_uncolored alone (r.load p drawn).graph.byDegree_nodup

/-- Shared extended colors are bounded by the degrees, unshared ones are as many as the nodes
without a register, and each one is held by some node. -/
theorem extended_colors_accounted (r : Round) (p : Procedure) (drawn : UInt64)
    (reached : (r.load p drawn).candidateFault? p.candidates = none)
    (room : (r.load p drawn).graph.nodeCount ≤ idCount) : (r.run p drawn).2.PoolAccounted := by
  refine ⟨fun id hid => held_of_mem_pool_run reached hid, exists_crowdedOut_run reached room, ?_,
    length_pool_run reached⟩
  intro shared bound hbound
  by_cases h : (r.run p drawn).2.pool = []
  · rw [h]
    exact Nat.zero_le _
  · obtain ⟨v, hv, _, hlength⟩ := exists_crowdedOut_run reached room shared h
    have := List.length_pos_iff.mpr ((spillsJustified_run reached).listed v hv).1
    have := hbound v hv
    omega

/-- Four values in each other's way take two registers and two extended colors, which is as many as
the degrees allow. -/
theorem crowd_extended_colors_accounted :
    ((new (Config.default.withSeed 5)).load crowd 0).candidateFault? crowd.candidates = none ∧
      ((new (Config.default.withSeed 5)).load crowd 0).graph.nodeCount ≤ idCount ∧
      ((new (Config.default.withSeed 5)).run crowd 0).2.pool = [-1, -2] ∧
      ((new (Config.default.withSeed 5)).run crowd 0).2.graph.degree ⟨1⟩ = 3 ∧
      ((new (Config.default.withSeed 5)).run crowd 0).2.PoolAccounted ∧
      ∃ v ∈ ((new (Config.default.withSeed 5)).run crowd 0).2.graph.nodes,
        ((new (Config.default.withSeed 5)).run crowd 0).2.CrowdedOut v := by
  have reached : ((new (Config.default.withSeed 5)).load crowd 0).candidateFault?
      crowd.candidates = none := by decide +kernel
  have room : ((new (Config.default.withSeed 5)).load crowd 0).graph.nodeCount ≤ idCount := by
    decide +kernel
  have hpool : ((new (Config.default.withSeed 5)).run crowd 0).2.pool = [-1, -2] := by
    decide +kernel
  have accounted := extended_colors_accounted (new (Config.default.withSeed 5)) crowd 0 reached room
  obtain ⟨v, hv, hcrowded, _⟩ := accounted.crowded (by decide +kernel) (by rw [hpool]; decide)
  exact ⟨reached, room, hpool, by decide +kernel, accounted, v, hv, hcrowded⟩

end Round

/-!
The ids that a run gives out. They are those from -1 downwards, and each is held by a node that was
left without a register. There are fewer such nodes than nodes: the first one to be colored has no
neighbor with a color yet.
-/

namespace Round

/-- The nodes that were left without a register, ascending. -/
def exhausted (r : Round) : List Value :=
  r.graph.nodes.sorted.filter fun v => (r.color? v).any Color.isExtended

/-- How many extended colors a finished coloring pass creates for how many nodes. -/
structure CreatesFew (r : Round) : Prop where
  held : r.pool.length ≤ r.exhausted.length
  spared : r.graph.nodeCount ≠ 0 → r.exhausted.length < r.graph.nodeCount

variable {r : Round} {p : Procedure} {drawn : UInt64}

theorem any_isExtended_iff {v : Value} : (r.color? v).any Color.isExtended = true ↔
    ∃ id, r.color? v = some (.extended id) := by
  cases r.color? v with
  | none => simp
  | some c => cases c <;> simp [Color.isExtended, Color.extendedId?]

theorem mem_exhausted {v : Value} : v ∈ r.exhausted ↔
    v ∈ r.graph.nodes ∧ ∃ id, r.color? v = some (.extended id) := by
  rw [exhausted, List.mem_filter, FiniteSet.mem_sorted, any_isExtended_iff]

/-- The first node is colored before its neighbors, so it finds all its candidates free. -/
theorem exists_not_exhausted (reached : (r.load p drawn).candidateFault? p.candidates = none)
    (nonempty : (r.run p drawn).2.graph.nodeCount ≠ 0) :
    ∃ v ∈ (r.run p drawn).2.graph.nodes, v ∉ (r.run p drawn).2.exhausted := by
  have hlength := (r.run p drawn).2.graph.byDegree_perm.length_eq
  have hsorted := (r.run p drawn).2.graph.byDegree_pairwise
  cases horder : (r.run p drawn).2.graph.byDegree with
  | nil =>
    rw [horder] at hlength
    exact absurd hlength.symm nonempty
  | cons v rest =>
    rw [horder] at hsorted
    have hv : v ∈ (r.run p drawn).2.graph.nodes := by
      rw [← Graph.mem_byDegree, horder]
      exact List.mem_cons_self
    refine ⟨v, hv, ?_⟩
    intro hexhausted
    have hheld := (exhausted_run_iff reached hv).mp (mem_exhausted.mp hexhausted).2
    obtain ⟨reg, hreg⟩ := List.exists_mem_of_ne_nil _ ((spillsJustified_run reached).listed v hv).1
    obtain ⟨n, _, hprecedes, hresolved⟩ := hheld reg hreg
    obtain ⟨index, hcolor, _⟩ := resolved?_eq_some_iff.mp hresolved
    have hn := Graph.mem_byDegree.mpr (nodes_of_colored reached n _ hcolor)
    rw [horder] at hn
    rcases List.mem_cons.mp hn with rfl | hn
    · exact Graph.not_precedes_self _ n hprecedes
    · exact ((List.pairwise_cons.mp hsorted).1 n hn).asymm hprecedes

theorem createsFew_run (reached : (r.load p drawn).candidateFault? p.candidates = none)
    (room : (r.load p drawn).graph.nodeCount ≤ idCount) : (r.run p drawn).2.CreatesFew := by
  constructor
  · apply length_le_of_held (fun v => ((r.run p drawn).2.color? v).bind Color.extendedId?)
      (nodup_pool_run reached room)
    intro id hid
    obtain ⟨v, hv, hcolor⟩ := held_of_mem_pool_run reached hid
    refine ⟨v, mem_exhausted.mpr ⟨hv, id, hcolor⟩, ?_⟩
    rw [hcolor]
    rfl
  · intro nonempty
    obtain ⟨v, hv, hspared⟩ := exists_not_exhausted reached nonempty
    rw [Graph.nodeCount, ← FiniteSet.length_sorted, exhausted,
      List.length_filter_lt_length_iff_exists]
    refine ⟨v, FiniteSet.mem_sorted.mpr hv, ?_⟩
    intro hextended
    exact hspared (mem_exhausted.mpr ⟨hv, any_isExtended_iff.mp hextended⟩)

/-- A run colors its nodes in one call, from an empty pool on. -/
theorem pool_run_eq (reached : (r.load p drawn).candidateFault? p.candidates = none) :
    (r.run p drawn).2.pool =
      ((r.load p drawn).callAll [.colorAll (r.load p drawn).graph.byDegree]).pool := by
  obtain ⟨log, hrun⟩ := run_of_reached reached
  rw [hrun]
  rfl

theorem exists_pool_run_eq (reached : (r.load p drawn).candidateFault? p.candidates = none) :
    ∃ l ≤ (r.load p drawn).graph.nodeCount, (r.run p drawn).2.pool = extendedIds l := by
  obtain ⟨l, hl, hids⟩ := pool_colorAll_eq (k := 0) load_uncolored.pool
    (r.load p drawn).graph.byDegree
  have hlength := (r.load p drawn).graph.byDegree_perm.length_eq
  obtain ⟨log, hrun⟩ := run_of_reached reached
  rw [hrun]
  refine ⟨l, ?_, hids⟩
  rw [Graph.nodeCount, FiniteSet.size]
  omega

theorem length_pool_run_le (reached : (r.load p drawn).candidateFault? p.candidates = none) :
    (r.run p drawn).2.pool.length ≤ (r.load p drawn).graph.nodeCount := by
  obtain ⟨l, hl, hids⟩ := exists_pool_run_eq reached
  rw [hids, length_extendedIds]
  exact hl

theorem poolDescends_run (room : (r.load p drawn).graph.nodeCount ≤ idCount) :
    (r.run p drawn).2.PoolDescends := by
  cases reached : (r.load p drawn).candidateFault? p.candidates with
  | some e =>
    rw [run_eq_conclude, conclude_of_starved reached]
    exact poolDescends_of_ids (k := 0) load_uncolored.pool (Nat.zero_le _)
  | none =>
    obtain ⟨l, hl, hids⟩ := exists_pool_run_eq reached
    exact poolDescends_of_ids hids (Nat.le_trans hl room)

theorem nextExact_run (reached : (r.load p drawn).candidateFault? p.candidates = none)
    (room : (r.load p drawn).graph.nodeCount ≤ idCount) {s : Round}
    (creates : (r.load p drawn).CreatesAt (.colorAll (r.load p drawn).graph.byDegree) s) :
    s.NextExact := by
  have hlength := Nat.le_trans (length_pool_run_le reached) room
  rw [pool_run_eq reached] at hlength
  exact nextExact_callAll load_uncolored.pool [] [] hlength creates

/-- Extended colors count down from -1, and no subtraction overflows. The calls may come in any
order and any number, on any graph and with any candidates, as long as there is an id below zero for
each color. In a run the number of nodes sees to that. -/
theorem extended_ids_descend :
    (∀ (r : Round) (cs : List PoolCall), r.pool = [] → (r.callAll cs).pool.length ≤ idCount →
      (r.callAll cs).PoolDescends ∧
        ∀ done c rest, cs = done ++ c :: rest → ∀ s, (r.callAll done).CreatesAt c s →
          s.NextExact) ∧
    ∀ (r : Round) (p : Procedure) (drawn : UInt64),
      (r.load p drawn).graph.nodeCount ≤ idCount →
        (r.run p drawn).2.PoolDescends ∧
          ((r.load p drawn).candidateFault? p.candidates = none →
            (∀ s, (r.load p drawn).CreatesAt (.colorAll (r.load p drawn).graph.byDegree) s →
              s.NextExact) ∧
            (r.run p drawn).2.CreatesFew) := by
  constructor
  · intro r cs empty room
    refine ⟨poolDescends_callAll empty room, ?_⟩
    rintro done c rest rfl s creates
    exact nextExact_callAll empty done rest room creates
  · intro r p drawn room
    refine ⟨poolDescends_run room, fun reached => ⟨?_, createsFew_run reached room⟩⟩
    exact fun s creates => nextExact_run reached room creates

/-- Two colors that are created on their own, a choice and a pass between them and after them; and
a run that leaves two of four nodes without a register. -/
theorem crowd_ids_descend :
    (triangle.callAll [.create, .select ⟨1⟩, .create, .colorAll [⟨2⟩, ⟨0⟩, ⟨1⟩]]).pool =
        [-1, -2] ∧
      (triangle.callAll [.create, .select ⟨1⟩, .create, .colorAll [⟨2⟩, ⟨0⟩, ⟨1⟩]]).PoolDescends ∧
      (triangle.callAll [.create, .select ⟨1⟩]).NextExact ∧
      ((new (Config.default.withSeed 5)).run crowd 0).2.pool = [-1, -2] ∧
      ((new (Config.default.withSeed 5)).run crowd 0).2.PoolDescends ∧
      ((new (Config.default.withSeed 5)).run crowd 0).2.exhausted.length = 2 ∧
      ((new (Config.default.withSeed 5)).run crowd 0).2.CreatesFew := by
  have hpool : (triangle.callAll
      [.create, .select ⟨1⟩, .create, .colorAll [⟨2⟩, ⟨0⟩, ⟨1⟩]]).pool = [-1, -2] := by
    decide +kernel
  have hroom : (triangle.callAll
      [.create, .select ⟨1⟩, .create, .colorAll [⟨2⟩, ⟨0⟩, ⟨1⟩]]).pool.length ≤ idCount := by
    rw [hpool]
    decide
  have reached : ((new (Config.default.withSeed 5)).load crowd 0).candidateFault?
      crowd.candidates = none := by decide +kernel
  have room : ((new (Config.default.withSeed 5)).load crowd 0).graph.nodeCount ≤ idCount := by
    decide +kernel
  obtain ⟨hcalls, hruns⟩ := extended_ids_descend
  obtain ⟨hdescends, hexact⟩ := hcalls triangle _ rfl hroom
  obtain ⟨hrun, hcreates⟩ := hruns (new (Config.default.withSeed 5)) crowd 0 room
  exact ⟨hpool, hdescends, hexact [.create, .select ⟨1⟩] .create _ rfl _ .create,
    by decide +kernel, hrun, by decide +kernel, (hcreates reached).2⟩

end Round

end RegisterColoring
