import RegisterColoring.Proofs.Graph.Fault
import RegisterColoring.Proofs.Round.Soundness

/-!
The verdict of the check, on any round whatever. Its tables may contradict each other, its colors
may stand for nothing: the check passes exactly when the arcs of every node are answered, its degree
counts them, and no edge has one register at both ends; and an error says what is the case. On a
graph that a run has built it notices every change to a single entry.
-/

namespace RegisterColoring

theorem Liveness.graph_intact (live : Liveness) (strategy : BuildStrategy)
    (marked : FiniteSet Value) : (live.graph strategy marked).Intact := by
  apply (Graph.Intact.empty.addNodes _).addEdges
  rintro ⟨u, v⟩ hp
  obtain ⟨hu, hv⟩ := mem_of_mem_linked (live.nodes_strict marked) hp
  exact ⟨Graph.mem_nodes_addNodes.mpr (.inl hu), Graph.mem_nodes_addNodes.mpr (.inl hv)⟩

namespace Round

/-- What an error of the check says of the round. A fault of the graph is that of its lowest faulty
node, and an edge is not accused unless the graph is sound. -/
inductive Attested (r : Round) : AllocError → Prop where
  | node (v : Value) (e : AllocError) (least : IsLeast r.graph.faulty v)
      (fault : r.graph.FaultAt v e) : Attested r e
  | edge (a b : Value) (reg : Register) (sound : r.graph.faulty = ∅)
      (joined : ⟨a, b⟩ ∈ r.graph.edges) (low : r.resolved? a = some reg)
      (high : r.resolved? b = some reg) : Attested r (.sharedRegister a b reg)

variable {r : Round} {e : AllocError}

theorem edgeFault?_eq_some_iff {d : Edge} : r.edgeFault? d = some e ↔
    ∃ reg, r.resolved? d.low = some reg ∧ r.resolved? d.high = some reg ∧
      e = .sharedRegister d.low d.high reg := by
  unfold edgeFault?
  cases r.resolved? d.low with
  | none => simp
  | some a =>
    cases r.resolved? d.high with
    | none => simp
    | some b => by_cases h : a = b <;> simp [h, eq_comm]

theorem edgeFault?_eq_none_iff {d : Edge} : r.edgeFault? d = none ↔
    ∀ reg, r.resolved? d.low = some reg → r.resolved? d.high ≠ some reg := by
  simp only [Option.eq_none_iff_forall_ne_some, ne_eq, edgeFault?_eq_some_iff]
  constructor
  · intro h reg hlow hhigh
    exact h _ ⟨reg, hlow, hhigh, rfl⟩
  · rintro h _ ⟨reg, hlow, hhigh, _⟩
    exact h reg hlow hhigh

theorem coloringFault?_eq_none_iff : r.coloringFault? = none ↔ ∀ d ∈ r.graph.edges, ∀ reg,
    r.resolved? d.low = some reg → r.resolved? d.high ≠ some reg := by
  simp only [coloringFault?, List.findSome?_eq_none_iff, FiniteSet.mem_sorted,
    edgeFault?_eq_none_iff]

theorem attested_of_fault? (h : r.fault? = some e) : r.Attested e := by
  rcases Option.or_eq_some_iff.mp h with hgraph | ⟨hsound, hcoloring⟩
  · obtain ⟨v, least, hfault⟩ := Graph.fault?_eq_some_iff.mp hgraph
    exact .node v e least (Graph.faultAt_of_nodeFault? hfault)
  · obtain ⟨d, hd, hfault⟩ := List.exists_of_findSome?_eq_some hcoloring
    obtain ⟨reg, hlow, hhigh, rfl⟩ := edgeFault?_eq_some_iff.mp hfault
    exact .edge d.low d.high reg (Graph.fault?_eq_none_iff_faulty.mp hsound)
      (FiniteSet.mem_sorted.mp hd) hlow hhigh

/-- The check passes exactly the rounds in which nothing is wrong, and what it reports is the case.
Only the last statement asks where the graph comes from. What else there is in the round, its colors
included, is left open there too. -/
theorem verdict_is_exact (r : Round) :
    (r.fault? = none ↔
      (∀ u ∈ r.graph.nodes, ∀ n ∈ r.graph.neighbors u, n ≠ u ∧ u ∈ r.graph.neighbors n) ∧
      (∀ u ∈ r.graph.nodes, r.graph.degree u = (r.graph.neighbors u).size) ∧
      ∀ d ∈ r.graph.edges, ∀ reg, r.resolved? d.low = some reg → r.resolved? d.high ≠ some reg) ∧
    (∀ e, r.fault? = some e → r.Attested e) ∧
    ∀ (s : Round) (p : Procedure) (drawn : UInt64) (e : AllocError),
      (s.run p drawn).2.graph.Tampered r.graph e → r.fault? = some e := by
  refine ⟨?_, fun e h => attested_of_fault? h, ?_⟩
  · rw [fault?, Option.or_eq_none_iff, Graph.fault?_eq_none_iff, coloringFault?_eq_none_iff,
      ← and_assoc]
    apply and_congr_left'
    exact ⟨fun h => ⟨fun u hu => (h u hu).1, fun u hu => (h u hu).2⟩,
      fun h u hu => ⟨h.1 u hu, h.2 u hu⟩⟩
  · intro s p drawn e tampered
    rw [graph_run] at tampered
    have hgraph := (p.live.graph_intact s.config.build s.marked).fault?_of_tampered tampered
    rw [fault?, hgraph, Option.some_or]

/-- The graph of the crowd, where each of four values has the three others for neighbors. -/
def crowdGraph : Graph := ((new (Config.default.withSeed 5)).run crowd 0).2.graph

/-- The higher end of an edge has lost its arc, and nothing is colored. The lower end is the one
that complains. -/
theorem torn_crowd_verdict :
    crowdGraph.Tampered (crowdGraph.removeArc ⟨3⟩ ⟨1⟩) (.missingArc ⟨1⟩ ⟨3⟩) ∧
      ({ new .default with graph := crowdGraph.removeArc ⟨3⟩ ⟨1⟩ } : Round).fault? =
        some (.missingArc ⟨1⟩ ⟨3⟩) ∧
      ({ new .default with graph := crowdGraph.removeArc ⟨3⟩ ⟨1⟩ } : Round).Attested
        (.missingArc ⟨1⟩ ⟨3⟩) := by
  have tampered : crowdGraph.Tampered (crowdGraph.removeArc ⟨3⟩ ⟨1⟩) (.missingArc ⟨1⟩ ⟨3⟩) :=
    .arcRemoved ⟨3⟩ ⟨1⟩ (by decide +kernel)
  obtain ⟨_, attested, noticed⟩ :=
    verdict_is_exact { new .default with graph := crowdGraph.removeArc ⟨3⟩ ⟨1⟩ }
  have hfault := noticed (new (Config.default.withSeed 5)) crowd 0 _ tampered
  exact ⟨tampered, hfault, attested _ hfault⟩

end Round

/-!
What the check says of neighbors. The coloring pass reads the neighbor sets and the check of the
colors reads the edges, and nothing compares the two. Neighbors that an edge joins are kept apart in
every round that passes, so neighbors are apart in each round whose graph was built edge by edge. An
arc that stands in both neighbor sets and in no edge is not looked at.
-/

namespace Round

/-- The values are not in one register. -/
def InDifferentRegisters (r : Round) (u v : Value) : Prop :=
  ∀ a b, r.resolved? u = some a → r.resolved? v = some b → a ≠ b

def NeighborsApart (r : Round) : Prop :=
  ∀ u ∈ r.graph.nodes, ∀ v ∈ r.graph.nodes, v ∈ r.graph.neighbors u → r.InDifferentRegisters u v

variable {r : Round} {u v : Value}

theorem InDifferentRegisters.symm (h : r.InDifferentRegisters u v) :
    r.InDifferentRegisters v u :=
  fun a b ha hb heq => h b a hb ha heq.symm

/-- An edge is looked at whichever end its pair names first. -/
theorem apart_of_interferes (passed : r.fault? = none) (joined : r.graph.interferes u v = true) :
    r.InDifferentRegisters u v := by
  have hedges := coloringFault?_eq_none_iff.mp (Option.or_eq_none_iff.mp passed).2
  have hends : ∀ a b : Value, (⟨a, b⟩ : Edge) ∈ r.graph.edges → r.InDifferentRegisters a b := by
    rintro a b hmem reg _ hreg hreg' rfl
    exact hedges ⟨a, b⟩ hmem reg hreg hreg'
  have hmem : Edge.between u v ∈ r.graph.edges := of_decide_eq_true joined
  unfold Edge.between at hmem
  split at hmem
  · exact hends u v hmem
  · exact (hends v u hmem).symm

theorem neighborsApart_of_arcs_listed (passed : r.fault? = none)
    (listed : ∀ u v, v ∈ r.graph.neighbors u → r.graph.interferes u v = true) :
    r.NeighborsApart :=
  fun u _ v _ hv => apart_of_interferes passed (listed u v hv)

/-- Neighbors that share a register in a round that passes the check are neighbors that no edge
joins. A graph that was built edge by edge has none of these. -/
theorem passed_conflicts_lie_off_the_edges (r : Round) (passed : r.fault? = none) :
    (r.NeighborsApart ↔ ∀ u ∈ r.graph.nodes, ∀ v ∈ r.graph.nodes, v ∈ r.graph.neighbors u →
      r.graph.interferes u v = false → r.InDifferentRegisters u v) ∧
    ∀ es, r.graph = Graph.ofEdits es → r.NeighborsApart := by
  constructor
  · constructor
    · exact fun apart u hu v hv hn _ => apart u hu v hv hn
    · intro unlisted u hu v hv hn
      cases joined : r.graph.interferes u v with
      | true => exact apart_of_interferes passed joined
      | false => exact unlisted u hu v hv hn joined
  · intro es hbuilt
    apply neighborsApart_of_arcs_listed passed
    intro u v hv
    rw [hbuilt] at hv ⊢
    exact ((Graph.Consistent.ofEdits es).mem_neighbors u v).mp hv

/-- Two neighbors that each have a register of their own. -/
def couple : Round :=
  { new .default with
    graph := Graph.ofEdits [.addNode ⟨0⟩, .addNode ⟨1⟩, .addEdge ⟨0⟩ ⟨1⟩]
    candidates := .ofList [(⟨0⟩, [⟨0⟩]), (⟨1⟩, [⟨1⟩])]
    colors := .ofList [(⟨0⟩, .real 0), (⟨1⟩, .real 0)] }

theorem couple_neighbors_apart :
    couple.fault? = none ∧ (⟨1⟩ : Value) ∈ couple.graph.neighbors ⟨0⟩ ∧ couple.NeighborsApart := by
  have passed : couple.fault? = none := by decide +kernel
  exact ⟨passed, by decide +kernel,
    (passed_conflicts_lie_off_the_edges couple passed).2 _ rfl⟩

/-- The couple with one register between them, and with their edge lost. -/
def estranged : Round :=
  { couple with
    graph := { couple.graph with edges := ∅ }
    candidates := .ofList [(⟨0⟩, [⟨0⟩]), (⟨1⟩, [⟨0⟩])] }

/-- Neighbor sets that mirror each other pass with the degrees that count them, and no edge is there
to tell of the conflict. -/
theorem estranged_conflict_passes : ¬ ∀ r : Round, r.fault? = none → r.NeighborsApart := by
  intro h
  have passed : estranged.fault? = none := by decide +kernel
  have neighbor : (⟨1⟩ : Value) ∈ estranged.graph.neighbors ⟨0⟩ := by decide +kernel
  have hzero : estranged.resolved? ⟨0⟩ = some ⟨0⟩ := by decide +kernel
  have hone : estranged.resolved? ⟨1⟩ = some ⟨0⟩ := by decide +kernel
  exact h estranged passed ⟨0⟩ (by decide +kernel) ⟨1⟩ (by decide +kernel) neighbor
    ⟨0⟩ ⟨0⟩ hzero hone rfl

end Round

end RegisterColoring
