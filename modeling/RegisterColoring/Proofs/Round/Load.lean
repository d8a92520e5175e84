import Mathlib.Data.List.TakeWhile
import RegisterColoring.Proofs.Coloring.Proper
import RegisterColoring.Proofs.Graph.Strategy

/-!
The round at the start of the coloring pass. Whatever an earlier run left behind, everything but the
log is determined by the configuration, the procedure, the marks and the seed.
-/

namespace RegisterColoring

namespace Liveness

/-- The graph of the unmarked values with a live range. -/
def graph (live : Liveness) (strategy : BuildStrategy) (marked : FiniteSet Value) : Graph :=
  (Graph.empty.addNodes (live.nodes marked)).addEdges
    (live.linked strategy (live.nodes marked))

variable {live : Liveness} {strategy : BuildStrategy} {marked : FiniteSet Value}

theorem graph_consistent : (live.graph strategy marked).Consistent :=
  (Graph.Consistent.empty.addNodes _).addEdges _

/-- The graph depends on what is answered about its nodes. -/
theorem AnswersAlike.graph {live live' : Liveness} (h : live.AnswersAlike live')
    {m n : FiniteSet Value} (nodes : live.nodes m = live'.nodes n) (strategy : BuildStrategy) :
    live.graph strategy m = live'.graph strategy n := by
  rw [Liveness.graph, nodes, h.linked, Liveness.graph]

theorem mem_nodes_graph {v : Value} :
    v ∈ (live.graph strategy marked).nodes ↔ v ∈ live.nodes marked := by
  rw [graph, Graph.nodes_addEdges, Graph.mem_nodes_addNodes]
  exact or_iff_left (FiniteSet.not_mem_empty v)

theorem interferes_graph_iff_linked {u v : Value} :
    (live.graph strategy marked).interferes u v = true ↔ u ≠ v ∧
      ((u, v) ∈ live.linked strategy (live.nodes marked) ∨
        (v, u) ∈ live.linked strategy (live.nodes marked)) := by
  have hnone : (Graph.empty.addNodes (live.nodes marked)).interferes u v = false := by
    rw [Graph.interferes, Graph.edges_addNodes]
    exact decide_eq_false (FiniteSet.not_mem_empty _)
  rw [graph, Graph.interferes_addEdges, hnone]
  exact or_iff_right Bool.false_ne_true

/-- Under either strategy the neighbors of a value are the other nodes it overlaps. -/
theorem interferes_graph_iff (faithful : live.Faithful (live.nodes marked)) {u v : Value} :
    (live.graph strategy marked).interferes u v = true ↔
      u ∈ live.nodes marked ∧ v ∈ live.nodes marked ∧ u ≠ v ∧ live.overlaps u v = true := by
  rw [interferes_graph_iff_linked, linked_iff faithful (live.nodes_strict marked)]
  constructor
  · exact And.right
  · exact fun h => ⟨h.2.2.1, h⟩

theorem graph_alike (faithful : live.Faithful (live.nodes marked))
    (strategy strategy' : BuildStrategy) :
    (live.graph strategy marked).Alike (live.graph strategy' marked) := by
  apply Graph.Alike.of_consistent graph_consistent graph_consistent
  · intro v
    rw [mem_nodes_graph, mem_nodes_graph]
  · intro u v
    rw [interferes_graph_iff faithful, interferes_graph_iff faithful]

end Liveness

namespace Round

/-- The round at the start of the coloring pass, with an empty log. -/
def problem (config : Config) (p : Procedure) (marked : FiniteSet Value) (seed : UInt64) :
    Round :=
  ({ new config with
      graph := p.live.graph config.build marked
      seed := seed
      generator := .ofSeed seed }.weigh p.usage marked).storeCandidates p.candidates

theorem weights_problem (config : Config) (p : Procedure) (marked : FiniteSet Value)
    (seed : UInt64) : (problem config p marked seed).weights =
      ((p.live.graph config.build marked).nodes.sorted ++ marked.sorted).foldl
        (fun ws v => ws.insert v (p.usage.weight v)) ∅ := rfl

theorem candidates_problem (config : Config) (p : Procedure) (marked : FiniteSet Value)
    (seed : UInt64) : (problem config p marked seed).candidates =
      ((p.live.graph config.build marked).nodes.sorted.takeWhile
        fun v => !(p.candidates v).isEmpty).foldl
          (fun cs v => cs.insert v (FiniteSet.ofList (p.candidates v)).sorted) ∅ := rfl

theorem buildEdges_eq (r : Round) (live : Liveness) (vs : List Value) :
    ∃ log, r.buildEdges live vs =
      { r with graph := r.graph.addEdges (live.linked r.config.build vs), log := log } := by
  unfold buildEdges Liveness.linked
  cases r.config.build with
  | pairwise => exact ⟨r.log, rfl⟩
  | sweep =>
    cases live.extents? vs with
    | some es => exact ⟨r.log, rfl⟩
    | none => exact ⟨r.log ++ [.extentsMissing], rfl⟩

theorem load_eq (r : Round) (p : Procedure) (drawn : UInt64) :
    ∃ log, r.load p drawn =
      { problem r.config p r.marked (r.config.seed.getD drawn) with log := log } := by
  obtain ⟨log, hlog⟩ := buildEdges_eq
    { r.start drawn with graph := (r.start drawn).graph.addNodes (p.live.nodes r.marked) }
    p.live (p.live.nodes r.marked)
  unfold load prepare build
  dsimp only
  rw [hlog]
  exact ⟨_, rfl⟩

theorem load_sameProblem (r : Round) (p : Procedure) (drawn : UInt64) :
    (problem r.config p r.marked (r.config.seed.getD drawn)).SameProblem (r.load p drawn) := by
  obtain ⟨log, h⟩ := r.load_eq p drawn
  rw [h]
  exact ⟨rfl, rfl, rfl, rfl, rfl, rfl⟩

variable {r : Round} {p : Procedure} {drawn : UInt64}

theorem load_graph : (r.load p drawn).graph = p.live.graph r.config.build r.marked :=
  (r.load_sameProblem p drawn).graph

theorem load_uncolored : (r.load p drawn).Uncolored := by
  obtain ⟨log, h⟩ := r.load_eq p drawn
  rw [h]
  exact ⟨rfl, rfl⟩

theorem load_consistent : (r.load p drawn).graph.Consistent := by
  rw [load_graph]
  exact Liveness.graph_consistent

theorem mem_nodes_load {v : Value} :
    v ∈ (r.load p drawn).graph.nodes ↔ v ∈ p.live.nodes r.marked := by
  rw [load_graph, Liveness.mem_nodes_graph]

theorem candidateFault?_eq_none_iff {candidates : Value → List Register} :
    r.candidateFault? candidates = none ↔ ∀ v ∈ r.graph.nodes, candidates v ≠ [] := by
  simp [candidateFault?, starved?]

theorem weights_load : (r.load p drawn).weights =
    ((r.load p drawn).graph.nodes.sorted ++ r.marked.sorted).foldl
      (fun ws v => ws.insert v (p.usage.weight v)) ∅ := by
  rw [load_graph, (r.load_sameProblem p drawn).weights, weights_problem]

theorem weight?_load (v : Value) : (r.load p drawn).weight? v =
    if v ∈ (r.load p drawn).graph.nodes ∨ v ∈ r.marked then some (p.usage.weight v) else none := by
  rw [weight?, weights_load, FiniteMap.get?_foldl_insert]
  simp only [List.mem_append, FiniteSet.mem_sorted]
  rfl

theorem weight?_load_eq_some_iff {v : Value} {w : Weight} : (r.load p drawn).weight? v = some w ↔
    (v ∈ (r.load p drawn).graph.nodes ∨ v ∈ r.marked) ∧ w = p.usage.weight v := by
  rw [weight?_load]
  split <;> simp_all [eq_comm]

theorem candidates_load (v : Value) : (r.load p drawn).candidates.get? v =
    if v ∈ (r.load p drawn).graph.nodes.sorted.takeWhile fun v => !(p.candidates v).isEmpty then
      some (FiniteSet.ofList (p.candidates v)).sorted
    else none := by
  rw [load_graph, (r.load_sameProblem p drawn).candidates, candidates_problem,
    FiniteMap.get?_foldl_insert]
  rfl

/-- When no node lacks candidates, every node has its own, ascending and without repetitions. -/
theorem candidatesOf_load (reached : (r.load p drawn).candidateFault? p.candidates = none)
    {v : Value} (hv : v ∈ (r.load p drawn).graph.nodes) :
    (r.load p drawn).candidatesOf v = (FiniteSet.ofList (p.candidates v)).sorted := by
  have hall := candidateFault?_eq_none_iff.mp reached
  have hstored : v ∈ (r.load p drawn).graph.nodes.sorted.takeWhile
      fun v => !(p.candidates v).isEmpty := by
    rw [List.takeWhile_eq_self_iff.mpr]
    · exact FiniteSet.mem_sorted.mpr hv
    · intro w hw
      simpa using hall w (FiniteSet.mem_sorted.mp hw)
  rw [candidatesOf, candidates_load, if_pos hstored]
  rfl

end Round

/-!
Which edges a build finds, whatever the analysis answers. When all pairs are asked about, the edges
are the pairs of nodes that overlap with the lower value asked first. The sweep joins the extents of
which the first has not ended where the second starts, if they overlap with the first asked first.
Nothing is asked of the overlaps, and nothing ties the extents to them.
-/

namespace Graph

theorem Consistent.mem_neighbors_iff_edge {g : Graph} (h : g.Consistent) {u v : Value} :
    v ∈ g.neighbors u ↔ ⟨u, v⟩ ∈ g.edges ∨ ⟨v, u⟩ ∈ g.edges := by
  rw [h.mem_neighbors, interferes, decide_eq_true_eq]
  constructor
  · intro he
    by_cases huv : u < v
    · rw [Edge.between_of_lt huv] at he
      exact .inl he
    · rw [Edge.between, if_neg huv] at he
      exact .inr he
  · intro he
    rcases he with he | he
    · rwa [Edge.between_of_lt (h.canonical _ he)]
    · rwa [Edge.between_comm, Edge.between_of_lt (h.canonical _ he)]

/-- Where the ends of all edges are nodes, degrees can be counted over the nodes. -/
theorem Consistent.degree_eq_countP {g : Graph} (h : g.Consistent)
    (ends : ∀ u v, g.interferes u v = true → v ∈ g.nodes) (v : Value) :
    g.degree v = g.nodes.elems.countP (g.interferes v) := by
  have hperm : (g.neighbors v).elems.Perm (g.nodes.elems.filter (g.interferes v)) := by
    apply (List.perm_ext_iff_of_nodup (g.neighbors v).nodup (g.nodes.nodup.filter _)).mpr
    intro w
    rw [List.mem_filter, ← FiniteSet.mem_def, ← FiniteSet.mem_def, h.mem_neighbors]
    exact (and_iff_right_of_imp (ends v w)).symm
  rw [h.degree_eq, FiniteSet.size, hperm.length_eq, List.countP_eq_length_filter]

end Graph

namespace Liveness

/-- The answer about a pair of values when the lower one is asked first. -/
def overlapsLowFirst (live : Liveness) (u v : Value) : Bool :=
  live.overlaps (Edge.between u v).low (Edge.between u v).high

/-- The nodes of the graph are the unmarked live values, and its edges the pairs of nodes that
overlap. -/
structure JoinsPairs (live : Liveness) (marked : FiniteSet Value) (g : Graph) : Prop where
  nodes : ∀ v, v ∈ g.nodes ↔ v ∈ live.values ∧ live.hasRange v = true ∧ v ∉ marked
  edges : ∀ e, e ∈ g.edges ↔ e.low ∈ g.nodes ∧ e.high ∈ g.nodes ∧ e.low < e.high ∧
    live.overlaps e.low e.high = true
  neighbors : ∀ u v, v ∈ g.neighbors u ↔ ⟨u, v⟩ ∈ g.edges ∨ ⟨v, u⟩ ∈ g.edges
  degree : ∀ v ∈ g.nodes, g.degree v =
    g.nodes.elems.countP fun w => decide (w ≠ v) && live.overlapsLowFirst v w

/-- The edges of the graph join the extents that meet in the sweep. -/
structure JoinsMeetings (live : Liveness) (es : List Extent) (g : Graph) : Prop
    extends g.Consistent where
  joins : ∀ d ∈ es, ∀ e ∈ es, d.Precedes e → (g.interferes d.value e.value = true ↔
    e.span.start < d.span.stop ∧ live.overlaps d.value e.value = true)
  ends : ∀ u v, g.interferes u v = true → ∃ d ∈ es, ∃ e ∈ es, d.value = u ∧ e.value = v

section Pairs

variable {live : Liveness} {marked : FiniteSet Value}

theorem interferes_pairwise_iff {u v : Value} :
    (live.graph .pairwise marked).interferes u v = true ↔
      u ∈ live.nodes marked ∧ v ∈ live.nodes marked ∧ u ≠ v ∧
        live.overlapsLowFirst u v = true := by
  have asked : ∀ {a b : Value}, (a, b) ∈ live.linked .pairwise (live.nodes marked) ↔
      a ∈ live.nodes marked ∧ b ∈ live.nodes marked ∧ a < b ∧ live.overlaps a b = true :=
    mem_pairwise (live.nodes_strict marked)
  rw [interferes_graph_iff_linked, asked, asked, overlapsLowFirst]
  rcases Std.lt_trichotomy u v with h | h | h
  · have hvu : ¬ v < u := Std.not_gt_of_lt h
    simp [Edge.between_of_lt h, h, hvu, Std.ne_of_lt h]
  · simp [h]
  · have huv : ¬ u < v := Std.not_gt_of_lt h
    rw [Edge.between_comm]
    simp only [Edge.between_of_lt h, h, huv, (Std.ne_of_lt h).symm, ne_eq, not_false_eq_true,
      false_and, and_false, false_or, true_and]
    exact and_left_comm

theorem mem_edges_pairwise_iff {e : Edge} : e ∈ (live.graph .pairwise marked).edges ↔
    e.low ∈ live.nodes marked ∧ e.high ∈ live.nodes marked ∧ e.low < e.high ∧
      live.overlaps e.low e.high = true := by
  constructor
  · intro he
    have hlt := graph_consistent.canonical e he
    obtain ⟨hlow, hhigh, _, ho⟩ :=
      interferes_pairwise_iff.mp ((Graph.interferes_low_high hlt).mpr he)
    rw [overlapsLowFirst, Edge.between_low_high hlt] at ho
    exact ⟨hlow, hhigh, hlt, ho⟩
  · rintro ⟨hlow, hhigh, hlt, ho⟩
    rw [← Graph.interferes_low_high hlt, interferes_pairwise_iff, overlapsLowFirst,
      Edge.between_low_high hlt]
    exact ⟨hlow, hhigh, Std.ne_of_lt hlt, ho⟩

theorem joinsPairs_graph : live.JoinsPairs marked (live.graph .pairwise marked) := by
  constructor
  · intro v
    rw [mem_nodes_graph, mem_nodes]
  · intro e
    rw [mem_edges_pairwise_iff, mem_nodes_graph, mem_nodes_graph]
  · intro u v
    exact graph_consistent.mem_neighbors_iff_edge
  · intro v hv
    have hends : ∀ a b, (live.graph .pairwise marked).interferes a b = true →
        b ∈ (live.graph .pairwise marked).nodes :=
      fun a b h => mem_nodes_graph.mpr (interferes_pairwise_iff.mp h).2.1
    rw [graph_consistent.degree_eq_countP hends]
    apply List.countP_congr
    intro w hw
    rw [mem_nodes_graph] at hv
    rw [← FiniteSet.mem_def, mem_nodes_graph] at hw
    rw [interferes_pairwise_iff, Bool.and_eq_true, decide_eq_true_eq, ne_comm]
    exact ⟨fun h => h.2.2, fun h => ⟨hv, hw, h⟩⟩

end Pairs

section Sweep

variable {live : Liveness} {es : List Extent}

/-- A value has one extent, so the sweep decides about two extents by their values. -/
theorem mem_sweep_iff (distinct : (es.map Extent.value).Nodup) {d e : Extent} (hd : d ∈ es)
    (he : e ∈ es) : (d.value, e.value) ∈ live.sweep es ↔
      d.Precedes e ∧ e.span.start < d.span.stop ∧ live.overlaps d.value e.value = true := by
  rw [mem_sweep distinct]
  constructor
  · rintro ⟨c, hc, f, hf, hcd, hfe, h⟩
    rw [List.inj_on_of_nodup_map distinct hc hd hcd, List.inj_on_of_nodup_map distinct hf he hfe]
      at h
    exact h
  · intro h
    exact ⟨d, hd, e, he, rfl, rfl, h⟩

/-- The order of the sweep leaves no choice. -/
theorem sweep_eq_of_perm {fs : List Extent} (distinct : (es.map Extent.value).Nodup)
    (perm : fs.Perm es) : live.sweep fs = live.sweep es := by
  have distinct' : (fs.map Extent.value).Nodup := (perm.map Extent.value).symm.nodup distinct
  have hsorted : sortBy Extent.before fs = sortBy Extent.before es := by
    refine List.Perm.eq_of_pairwise ?_ (Extent.pairwise_precedes_sortBy distinct')
      (Extent.pairwise_precedes_sortBy distinct)
      ((sortBy_perm _ fs).trans (perm.trans (sortBy_perm _ es).symm))
    intro d e _ _ hde hed
    exact absurd hed (Extent.Precedes.asymm d e hde)
  rw [sweep, hsorted, sweep]

theorem joinsMeetings_addEdges (distinct : (es.map Extent.value).Nodup) :
    live.JoinsMeetings es (Graph.empty.addEdges (live.sweep es)) := by
  have linked : ∀ {u v : Value}, (Graph.empty.addEdges (live.sweep es)).interferes u v = true ↔
      u ≠ v ∧ ((u, v) ∈ live.sweep es ∨ (v, u) ∈ live.sweep es) := by
    intro u v
    have hnone : Graph.empty.interferes u v = false := decide_eq_false (FiniteSet.not_mem_empty _)
    rw [Graph.interferes_addEdges, hnone]
    exact or_iff_right Bool.false_ne_true
  refine { Graph.Consistent.empty.addEdges (live.sweep es) with joins := ?_, ends := ?_ }
  · intro d hd e he hb
    rw [linked, mem_sweep_iff distinct hd he, mem_sweep_iff distinct he hd]
    have hne : d.value ≠ e.value := by
      intro heq
      rw [List.inj_on_of_nodup_map distinct hd he heq] at hb
      exact Extent.Precedes.asymm e e hb hb
    simp [hne, hb, Extent.Precedes.asymm d e hb]
  · intro u v h
    rcases (linked.mp h).2 with hm | hm <;>
      obtain ⟨d, hd, e, he, hdu, hev, _⟩ := (mem_sweep distinct).mp hm
    · exact ⟨d, hd, e, he, hdu, hev⟩
    · exact ⟨e, he, d, hd, hev, hdu⟩

end Sweep

end Liveness

namespace Round

theorem graph_build (r : Round) (live : Liveness) (marked : FiniteSet Value) :
    (r.clear.build live marked).graph = live.graph r.config.build marked := by
  obtain ⟨log, h⟩ := buildEdges_eq
    { r.clear with graph := r.clear.graph.addNodes (live.nodes marked) } live (live.nodes marked)
  unfold build
  dsimp only
  rw [h]
  rfl

/-- The pairwise build joins exactly the pairs of nodes that overlap when the lower one is asked
first, whatever the analysis answers. -/
theorem pairwise_build_exact (r : Round) (live : Liveness) (marked : FiniteSet Value)
    (pairwise : r.config.build = .pairwise) :
    live.JoinsPairs marked (r.clear.build live marked).graph := by
  rw [graph_build, pairwise]
  exact Liveness.joinsPairs_graph

/-- Overlaps that mostly depend on who is asked first. One value is listed twice, one is dead. -/
def lopsided : Liveness where
  values := [⟨3⟩, ⟨1⟩, ⟨4⟩, ⟨1⟩, ⟨0⟩, ⟨2⟩]
  overlaps := fun u v => [(⟨1⟩, ⟨3⟩), (⟨2⟩, ⟨1⟩), (⟨2⟩, ⟨3⟩), (⟨3⟩, ⟨2⟩), (⟨0⟩, ⟨1⟩), (⟨2⟩, ⟨4⟩),
    (⟨2⟩, ⟨2⟩)].contains (u, v)
  spillable := fun _ => true
  hasRange := fun v => decide (v ≠ ⟨4⟩)
  extent := fun _ => none

theorem lopsided_pairs_joined :
    (new .default).config.build = .pairwise ∧
      lopsided.JoinsPairs (.ofList [⟨0⟩, ⟨9⟩])
        ((new .default).clear.build lopsided (.ofList [⟨0⟩, ⟨9⟩])).graph ∧
      ((new .default).clear.build lopsided (.ofList [⟨0⟩, ⟨9⟩])).graph.edges.sorted =
        [⟨⟨1⟩, ⟨3⟩⟩, ⟨⟨2⟩, ⟨3⟩⟩] ∧
      ((new .default).clear.build lopsided (.ofList [⟨0⟩, ⟨9⟩])).graph.degree ⟨3⟩ = 2 :=
  ⟨rfl, pairwise_build_exact (new .default) lopsided (.ofList [⟨0⟩, ⟨9⟩]) rfl, by decide, by decide⟩

/-- The sweep joins exactly the pairs whose extents meet and that overlap when the first is asked
first. The order in which the extents are listed does not matter. -/
theorem sweep_joins_meetings (r : Round) (live : Liveness) (es : List Extent)
    (distinct : (es.map Extent.value).Nodup) :
    live.JoinsMeetings es (r.clear.buildSweep live es).graph ∧
      ∀ fs, fs.Perm es → r.clear.buildSweep live fs = r.clear.buildSweep live es := by
  constructor
  · exact Liveness.joinsMeetings_addEdges distinct
  · intro fs perm
    rw [buildSweep, Liveness.sweep_eq_of_perm distinct perm, buildSweep]

/-- Extents that start together, end where they start or before, and outlast others. -/
def skewExtents : List Extent :=
  [⟨⟨3⟩, ⟨4, 2⟩⟩, ⟨⟨1⟩, ⟨4, 9⟩⟩, ⟨⟨0⟩, ⟨4, 4⟩⟩, ⟨⟨2⟩, ⟨0, 6⟩⟩]

theorem skewExtents_joined :
    (skewExtents.map Extent.value).Nodup ∧
      (Extent.mk ⟨2⟩ ⟨0, 6⟩).Precedes ⟨⟨3⟩, ⟨4, 2⟩⟩ ∧
      (((new .default).clear.buildSweep lopsided skewExtents).graph.interferes ⟨2⟩ ⟨3⟩ = true ↔
        4 < 6 ∧ lopsided.overlaps ⟨2⟩ ⟨3⟩ = true) ∧
      ((new .default).clear.buildSweep lopsided skewExtents).graph.edges.sorted =
        [⟨⟨1⟩, ⟨2⟩⟩, ⟨⟨1⟩, ⟨3⟩⟩, ⟨⟨2⟩, ⟨3⟩⟩] ∧
      skewExtents.reverse.Perm skewExtents ∧
      (new .default).clear.buildSweep lopsided skewExtents.reverse =
        (new .default).clear.buildSweep lopsided skewExtents := by
  have distinct : (skewExtents.map Extent.value).Nodup := by decide
  obtain ⟨hjoins, horder⟩ := sweep_joins_meetings (new .default) lopsided skewExtents distinct
  have hfirst : (Extent.mk ⟨2⟩ ⟨0, 6⟩).Precedes ⟨⟨3⟩, ⟨4, 2⟩⟩ := .inl (by decide)
  refine ⟨distinct, hfirst, ?_, by decide, skewExtents.reverse_perm, ?_⟩
  · exact hjoins.joins ⟨⟨2⟩, ⟨0, 6⟩⟩ (by decide) ⟨⟨3⟩, ⟨4, 2⟩⟩ (by decide) hfirst
  · exact horder _ skewExtents.reverse_perm

end Round

end RegisterColoring
