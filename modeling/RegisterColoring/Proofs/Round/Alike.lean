import RegisterColoring.Proofs.Graph.History
import RegisterColoring.Proofs.LiveRange.Overlap
import RegisterColoring.Proofs.Round.Outcome

/-!
Rounds that hold the same sets and maps. The tables behind them may list their entries in any order;
the coloring pass asks for members and entries only, so rounds that are alike color alike and draw
alike.
-/

namespace RegisterColoring

namespace Round

/-- Rounds that answer every question of the coloring pass alike. How their graphs were built, and
what they weigh and log, does not matter to it. -/
structure Alike (r s : Round) : Prop where
  exhaustion : r.config.exhaustion = s.config.exhaustion
  verify : r.config.verify = s.config.verify
  graph : r.graph.Alike s.graph
  candidates : ∀ v, r.candidates.get? v = s.candidates.get? v
  colors : ∀ v, r.color? v = s.color? v
  pool : r.pool = s.pool
  seed : r.seed = s.seed
  generator : r.generator = s.generator

namespace Alike

variable {r s : Round}

theorem candidatesOf (h : r.Alike s) (v : Value) : r.candidatesOf v = s.candidatesOf v := by
  simp only [Round.candidatesOf, h.candidates]

theorem resolved? (h : r.Alike s) (v : Value) : r.resolved? v = s.resolved? v :=
  resolved?_congr (h.colors v) (h.candidatesOf v)

theorem mem_takenRegisters (h : r.Alike s) (v : Value) (reg : Register) :
    reg ∈ r.takenRegisters v ↔ reg ∈ s.takenRegisters v := by
  rw [Round.mem_takenRegisters, Round.mem_takenRegisters]
  simp only [h.graph.neighbors, h.resolved?]

theorem mem_takenExtended (h : r.Alike s) (v : Value) (id : Int32) :
    id ∈ r.takenExtended v ↔ id ∈ s.takenExtended v := by
  rw [Round.mem_takenExtended, Round.mem_takenExtended]
  simp only [h.graph.neighbors, h.colors]

/-- Both rounds draw from the same lists, so the same draw gives the same color. -/
theorem sameChoice (h : r.Alike s) (v : Value) : r.SameChoice s v v where
  indices := freeIndices_congr (h.candidatesOf v) (h.mem_takenRegisters v)
  extended := freeExtended_congr h.exhaustion h.pool (h.mem_takenExtended v)
  pool := h.pool
  generator := h.generator

theorem selectColor (h : r.Alike s) (v : Value) :
    (r.selectColor v).1 = (s.selectColor v).1 ∧
      (r.selectColor v).2.Alike (s.selectColor v).2 := by
  obtain ⟨hcolor, hpool, hgenerator⟩ := (h.sameChoice v).selectColor
  refine ⟨hcolor, ?_⟩
  rw [(r.selects_selectColor v).frame, (s.selects_selectColor v).frame]
  exact { h with pool := hpool, generator := hgenerator }

theorem colorNode (h : r.Alike s) (v : Value) : (r.colorNode v).Alike (s.colorNode v) := by
  obtain ⟨hcolor, hnext⟩ := h.selectColor v
  have hcolors : ∀ w, (r.colorNode v).color? w = (s.colorNode v).color? w := by
    intro w
    rw [color?_colorNode, color?_colorNode, hcolor, h.colors w]
  exact { hnext with colors := hcolors }

theorem colorAll (h : r.Alike s) (vs : List Value) : (r.colorAll vs).Alike (s.colorAll vs) := by
  induction vs generalizing r s with
  | nil => exact h
  | cons v vs ih => exact ih (h.colorNode v)

theorem withLog (h : r.Alike s) (l m : List Event) :
    ({ r with log := l } : Round).Alike { s with log := m } := { h with }

theorem colorGraph (h : r.Alike s) : r.colorGraph.Alike s.colorGraph := by
  have hcolored := h.colorAll r.graph.byDegree
  have horder := h.graph.byDegree_eq
  unfold Round.colorGraph
  rw [← horder]
  exact hcolored.withLog _ _

end Alike

end Round

/-!
Rounds that are alike end alike: the check finds the same, and so does the outcome, down to the
weights that go with it.
-/

/-- Which fates fail is a matter of spillability alone. -/
theorem Liveness.failure?_congr {live live' : Liveness}
    (spillable : live.spillable = live'.spillable) : live.failure? = live'.failure? := by
  funext v f
  cases f with
  | assigned => rfl
  | unresolved => rfl
  | spilled => rw [failure?, failure?, spillable]

/-- Allocations that differ in nothing but what they weigh. -/
structure Allocation.DecidesAlike (a b : Allocation) : Prop where
  decisions : a.decisions = b.decisions
  preferences : a.preferences = b.preferences
  seed : a.seed = b.seed
  extendedColors : a.extendedColors = b.extendedColors

namespace Round

/-- Two runs that end alike: with one result, in rounds that are alike and weigh alike. -/
structure EndAlike (x y : Except AllocError Allocation × Round) : Prop where
  result : x.1 = y.1
  round : x.2.Alike y.2
  weights : x.2.weights = y.2.weights

namespace Alike

variable {r s : Round}

theorem candidateFault? (h : r.Alike s) (candidates : Value → List Register) :
    r.candidateFault? candidates = s.candidateFault? candidates := by
  simp only [Round.candidateFault?, starved?, h.graph.nodes_sorted]

theorem coloringFault? (h : r.Alike s) : r.coloringFault? = s.coloringFault? := by
  have hfault : r.edgeFault? = s.edgeFault? := by
    funext e
    simp only [edgeFault?, h.resolved?]
  rw [Round.coloringFault?, Round.coloringFault?, h.graph.edges_sorted, hfault]

/-- The check visits the neighbor sets in the order of their tables, so which fault of a broken
graph it finds first depends on that order; in a consistent graph it finds none. -/
theorem checked? (h : r.Alike s) (hr : r.graph.Consistent) (hs : s.graph.Consistent) :
    r.checked? = s.checked? := by
  simp only [Round.checked?, Round.fault?, h.verify, hr.fault?_eq_none, hs.fault?_eq_none,
    h.coloringFault?]

theorem fateOf (h : r.Alike s) (v : Value) (c : Color) : r.fateOf v c = s.fateOf v c := by
  simp only [Round.fateOf, h.candidatesOf]

theorem coloredFates (h : r.Alike s) : r.coloredFates = s.coloredFates := by
  have hentries : r.colors.sortedEntries = s.colors.sortedEntries :=
    FiniteMap.sortedEntries_eq_of_get? h.colors
  rw [Round.coloredFates, hentries, Round.coloredFates]
  simp only [h.fateOf]

theorem fates (h : r.Alike s) (live : Liveness) (marked : FiniteSet Value) :
    r.fates live marked = s.fates live marked := by
  rw [fates_eq, h.coloredFates, fates_eq]

theorem allocation (h : r.Alike s) (weights : r.weights = s.weights)
    (fs : List (Value × Fate)) : r.allocation fs = s.allocation fs := by
  simp only [Round.allocation, weights, h.seed, h.pool]

theorem allocation_decidesAlike (h : r.Alike s) (fs : List (Value × Fate)) :
    (r.allocation fs).DecidesAlike (s.allocation fs) :=
  ⟨rfl, rfl, h.seed, congrArg List.length h.pool⟩

theorem resolve (h : r.Alike s) (weights : r.weights = s.weights) (live : Liveness)
    (marked : FiniteSet Value) :
    EndAlike (r.resolve live marked) (s.resolve live marked) := by
  have hnoted : ∀ fs, (r.noteSpills live fs).Alike (s.noteSpills live fs) :=
    fun fs => h.withLog _ _
  unfold Round.resolve
  rw [h.fates live marked]
  dsimp only
  cases (s.fates live marked).findSome? fun f => live.failure? f.1 f.2 with
  | some e => exact ⟨rfl, hnoted _, weights⟩
  | none => exact ⟨congrArg Except.ok (h.allocation weights _), hnoted _, weights⟩

theorem conclude (h : r.Alike s) (weights : r.weights = s.weights) (hr : r.graph.Consistent)
    (hs : s.graph.Consistent) (p : Procedure) (marked : FiniteSet Value) :
    EndAlike (r.conclude p marked) (s.conclude p marked) := by
  have hcolored := h.colorGraph
  have hchecked : r.colorGraph.checked? = s.colorGraph.checked? :=
    hcolored.checked? (r.colorGraph_sameProblem.graph ▸ hr) (s.colorGraph_sameProblem.graph ▸ hs)
  have hweights : r.colorGraph.weights = s.colorGraph.weights := by
    rw [r.colorGraph_sameProblem.weights, s.colorGraph_sameProblem.weights, weights]
  unfold Round.conclude
  rw [h.candidateFault? p.candidates, hchecked]
  cases s.candidateFault? p.candidates with
  | some e => exact ⟨rfl, h, weights⟩
  | none =>
    dsimp only
    cases s.colorGraph.checked? with
    | some e => exact ⟨rfl, hcolored, hweights⟩
    | none => exact hcolored.resolve hweights p.live marked

/-- The rounds stay alike to the end even if what decides the outcome differs: which values are
marked, and which of them may be spilled. -/
theorem conclude_round (h : r.Alike s) {p q : Procedure} (candidates : p.candidates = q.candidates)
    (marked marked' : FiniteSet Value) :
    (r.conclude p marked).2.Alike (s.conclude q marked').2 := by
  have hfault : s.candidateFault? q.candidates = r.candidateFault? p.candidates := by
    rw [h.candidateFault?, candidates]
  cases reached : r.candidateFault? p.candidates with
  | some e =>
    rw [conclude_of_starved reached, conclude_of_starved (hfault.trans reached)]
    exact h
  | none =>
    obtain ⟨log, hr⟩ := conclude_of_reached reached marked
    obtain ⟨log', hs⟩ := conclude_of_reached (hfault.trans reached) marked'
    rw [hr, hs, h.graph.byDegree_eq]
    exact (h.colorAll _).withLog log log'

/-- What the weights are plays no part in how a run fails. -/
theorem error?_conclude (h : r.Alike s) (hr : r.graph.Consistent) (hs : s.graph.Consistent)
    {p q : Procedure} (candidates : p.candidates = q.candidates)
    (spillable : p.live.spillable = q.live.spillable) {marked marked' : FiniteSet Value}
    (hmarked : markedLive p.live marked = markedLive q.live marked') :
    error? (r.conclude p marked).1 = error? (s.conclude q marked').1 := by
  have hchecked : r.colorGraph.checked? = s.colorGraph.checked? :=
    h.colorGraph.checked? (r.colorGraph_sameProblem.graph ▸ hr)
      (s.colorGraph_sameProblem.graph ▸ hs)
  have hfates : r.colorGraph.fates p.live marked = s.colorGraph.fates q.live marked' := by
    rw [h.colorGraph.fates p.live marked, Round.fates, Round.fates, hmarked]
  rw [Round.error?_conclude, Round.error?_conclude, h.candidateFault? p.candidates, candidates,
    hchecked, hfates, Liveness.failure?_congr spillable]

end Alike

theorem problem_alike_of_graph {config config' : Config} {p q : Procedure}
    {marked marked' : FiniteSet Value} (seed : UInt64)
    (exhaustion : config.exhaustion = config'.exhaustion) (verify : config.verify = config'.verify)
    (candidates : p.candidates = q.candidates)
    (graph : (p.live.graph config.build marked).Alike (q.live.graph config'.build marked')) :
    (problem config p marked seed).Alike (problem config' q marked' seed) where
  exhaustion := exhaustion
  verify := verify
  graph := graph
  candidates v := by
    rw [candidates_problem, candidates_problem, candidates, graph.nodes_sorted]
  colors _ := rfl
  pool := rfl
  seed := rfl
  generator := rfl

section Run

variable {r s : Round} {p q : Procedure} {drawn drawn' : UInt64}

theorem load_alike_of_graph (exhaustion : r.config.exhaustion = s.config.exhaustion)
    (verify : r.config.verify = s.config.verify)
    (seed : r.config.seed.getD drawn = s.config.seed.getD drawn')
    (candidates : p.candidates = q.candidates)
    (graph : (p.live.graph r.config.build r.marked).Alike
      (q.live.graph s.config.build s.marked)) : (r.load p drawn).Alike (s.load q drawn') := by
  obtain ⟨log, hr⟩ := r.load_eq p drawn
  obtain ⟨log', hs⟩ := s.load_eq q drawn'
  rw [hr, hs, seed]
  exact (problem_alike_of_graph _ exhaustion verify candidates graph).withLog log log'

/-- Rounds that are configured and seeded alike load alike if their nodes are the same and the same
is answered about them. -/
theorem load_alike_of_nodes (config : r.config = s.config)
    (seed : r.config.seed.getD drawn = s.config.seed.getD drawn')
    (candidates : p.candidates = q.candidates) (answers : p.live.AnswersAlike q.live)
    (nodes : p.live.nodes r.marked = q.live.nodes s.marked) :
    (r.load p drawn).Alike (s.load q drawn') := by
  have hgraph : p.live.graph r.config.build r.marked = q.live.graph s.config.build s.marked := by
    rw [answers.graph nodes, config]
  apply load_alike_of_graph (by rw [config]) (by rw [config]) seed candidates
  rw [hgraph]
  exact .refl _

end Run

end Round

/-!
The order in which tables enumerate never shows. A graph is known by the nodes and pairs it was
given, and rounds that hold the same sets and maps are indistinguishable to the coloring pass, the
check and the outcome: they take the nodes in one order, draw from equal lists, and end with equal
colors, equal extended colors and one state of the generator.
-/

namespace Round

/-- The same error, or allocations that decide alike. -/
def ResultsAlike : Except AllocError Allocation → Except AllocError Allocation → Prop
  | .error e, .error f => e = f
  | .ok a, .ok b => a.DecidesAlike b
  | _, _ => False

/-- What can be asked of two rounds that hold the same, with the same answer. A sound graph is one
the check finds nothing wrong with; in another one the first fault is a matter of order. -/
structure Indistinguishable (r s : Round) : Prop where
  order : r.graph.byDegree = s.graph.byDegree
  selects : ∀ v, (r.selectColor v).1 = (s.selectColor v).1 ∧
    (r.selectColor v).2.Alike (s.selectColor v).2
  colors : ∀ vs, (r.colorAll vs).Alike (s.colorAll vs)
  verdict : r.fault? = none ↔ s.fault? = none
  fault : r.graph.fault? = none → r.fault? = s.fault?
  resolves : ∀ (live : Liveness) (marked : FiniteSet Value),
    ResultsAlike (r.resolve live marked).1 (s.resolve live marked).1 ∧
      (r.resolve live marked).2.Alike (s.resolve live marked).2
  weighs : (∀ v, r.weight? v = s.weight? v) → ∀ (live : Liveness) (marked : FiniteSet Value) a b,
    (r.resolve live marked).1 = .ok a → (s.resolve live marked).1 = .ok b →
      ∀ v, a.weights.get? v = b.weights.get? v

theorem weights_resolve {r : Round} {live : Liveness} {marked : FiniteSet Value} {a : Allocation}
    (ok : (r.resolve live marked).1 = .ok a) : a.weights = r.weights := by
  unfold resolve at ok
  dsimp only at ok
  cases done : (r.fates live marked).findSome? fun f => live.failure? f.1 f.2 with
  | some e =>
    rw [done] at ok
    cases ok
  | none =>
    rw [done] at ok
    cases ok
    rfl

namespace Alike

variable {r s : Round}

theorem fault?_eq_none_iff (h : r.Alike s) : r.fault? = none ↔ s.fault? = none := by
  rw [Round.fault?, Round.fault?, Option.or_eq_none_iff, Option.or_eq_none_iff,
    h.graph.fault?_eq_none_iff, h.coloringFault?]

theorem fault? (h : r.Alike s) (sound : r.graph.fault? = none) : r.fault? = s.fault? := by
  rw [Round.fault?, Round.fault?, sound, h.graph.fault?_eq_none_iff.mp sound, h.coloringFault?]

theorem resolve_resultsAlike (h : r.Alike s) (live : Liveness) (marked : FiniteSet Value) :
    ResultsAlike (r.resolve live marked).1 (s.resolve live marked).1 ∧
      (r.resolve live marked).2.Alike (s.resolve live marked).2 := by
  have hnoted : ∀ fs, (r.noteSpills live fs).Alike (s.noteSpills live fs) :=
    fun fs => h.withLog _ _
  unfold Round.resolve
  rw [h.fates live marked]
  dsimp only
  cases (s.fates live marked).findSome? fun f => live.failure? f.1 f.2 with
  | some e => exact ⟨rfl, hnoted _⟩
  | none => exact ⟨h.allocation_decidesAlike _, hnoted _⟩

theorem indistinguishable (h : r.Alike s) : r.Indistinguishable s where
  order := h.graph.byDegree_eq
  selects := h.selectColor
  colors := h.colorAll
  verdict := h.fault?_eq_none_iff
  fault := h.fault?
  resolves := h.resolve_resultsAlike
  weighs weights _ _ a b ok ok' v := by
    rw [weights_resolve ok, weights_resolve ok']
    exact weights v

end Alike

/-- The order in which sets and tables enumerate has no influence on anything: graphs that were
given the same nodes and pairs agree, and rounds that hold the same sets and maps are
indistinguishable. -/
theorem enumeration_never_shows :
    (∀ es fs : List Graph.Edit, .clear ∉ es → .clear ∉ fs → Graph.SameMentions es fs →
      (Graph.ofEdits es).Alike (Graph.ofEdits fs) ∧
        (∀ u v, (Graph.ofEdits es).interferes u v = (Graph.ofEdits fs).interferes u v) ∧
        (Graph.ofEdits es).nodes.sorted = (Graph.ofEdits fs).nodes.sorted ∧
        (Graph.ofEdits es).edges.sorted = (Graph.ofEdits fs).edges.sorted) ∧
      ∀ r s : Round, r.Alike s → r.Indistinguishable s := by
  refine ⟨?_, fun r s alike => alike.indistinguishable⟩
  intro es fs kept kept' same
  have alike := same.alike kept kept'
  exact ⟨alike, alike.interferes, alike.nodes_sorted, alike.edges_sorted⟩

/-- The triangle after two of its nodes have been colored. -/
def halfColored : Round :=
  { triangle with colors := .ofList [(⟨0⟩, .real 0), (⟨1⟩, .real 0)] }

def turnedEdits : List Graph.Edit :=
  [.addEdge ⟨1⟩ ⟨2⟩, .addEdge ⟨0⟩ ⟨2⟩, .addNode ⟨0⟩, .addEdge ⟨2⟩ ⟨2⟩, .addEdge ⟨1⟩ ⟨0⟩,
    .addEdge ⟨2⟩ ⟨1⟩, .addNode ⟨0⟩]

/-- The same with every table filled in another order. -/
def turned : Round :=
  { triangle with
    graph := .ofEdits turnedEdits
    candidates := .ofList [(⟨2⟩, [⟨0⟩, ⟨1⟩]), (⟨1⟩, [⟨1⟩]), (⟨0⟩, [⟨0⟩, ⟨1⟩])]
    colors := .ofList [(⟨1⟩, .real 0), (⟨0⟩, .real 0)] }

theorem triangle_sameMentions : Graph.SameMentions
    [.addEdge ⟨0⟩ ⟨1⟩, .addNode ⟨0⟩, .addEdge ⟨2⟩ ⟨1⟩, .addEdge ⟨2⟩ ⟨0⟩] turnedEdits := by
  constructor
  · intro v
    simp [turnedEdits]
  · intro u v distinct
    simp only [turnedEdits, Graph.Links, List.mem_cons, Graph.Edit.addEdge.injEq, reduceCtorEq,
      List.not_mem_nil, or_false, false_or]
    grind

theorem turned_indistinguishable :
    (halfColored.graph.neighbors ⟨0⟩).elems ≠ (turned.graph.neighbors ⟨0⟩).elems ∧
      halfColored.colors.entries ≠ turned.colors.entries ∧
      halfColored.graph.edges.sorted = turned.graph.edges.sorted ∧
      halfColored.Indistinguishable turned ∧
      (turned.selectColor ⟨2⟩).1 = .extended (-1) := by
  have hgraph := enumeration_never_shows.1 _ turnedEdits (by decide) (by decide)
    triangle_sameMentions
  have halike : halfColored.Alike turned :=
    { exhaustion := rfl
      verify := rfl
      graph := hgraph.1
      candidates := by
        intro v
        simp only [halfColored, turned, triangle, FiniteMap.ofList, List.foldl_cons,
          List.foldl_nil, FiniteMap.get?_insert]
        grind
      colors := by
        intro v
        simp only [halfColored, turned, color?, FiniteMap.ofList, List.foldl_cons,
          List.foldl_nil, FiniteMap.get?_insert]
        grind
      pool := rfl
      seed := rfl
      generator := rfl }
  exact ⟨by decide, by decide, hgraph.2.2.2, enumeration_never_shows.2 _ _ halike, by decide⟩

end Round

/-!
The two strategies agree. They add the same edges in different orders, so the rounds they load are
alike, and so are the rounds they end in. Nothing is asked of a table of live ranges; a liveness
analysis has to be faithful on the values of the graph.
-/

namespace Round

def withBuild (r : Round) (strategy : BuildStrategy) : Round :=
  { r with config := r.config.withBuild strategy }

theorem load_alike (r : Round) {p : Procedure} (drawn : UInt64)
    (faithful : p.live.Faithful (p.live.nodes r.marked)) (s t : BuildStrategy) :
    ((r.withBuild s).load p drawn).Alike ((r.withBuild t).load p drawn) ∧
      ((r.withBuild s).load p drawn).weights = ((r.withBuild t).load p drawn).weights := by
  have halike : ((r.withBuild s).load p drawn).Alike ((r.withBuild t).load p drawn) :=
    load_alike_of_graph rfl rfl rfl rfl (p.live.graph_alike faithful s t)
  constructor
  · exact halike
  · rw [weights_load, weights_load, halike.graph.nodes_sorted]
    rfl

theorem run_endAlike (r : Round) {p : Procedure} (drawn : UInt64)
    (faithful : p.live.Faithful (p.live.nodes r.marked)) (s t : BuildStrategy) :
    EndAlike ((r.withBuild s).run p drawn) ((r.withBuild t).run p drawn) := by
  obtain ⟨halike, hweights⟩ := r.load_alike drawn faithful s t
  exact halike.conclude hweights load_consistent load_consistent p r.marked

/-- Both strategies lead to the same run, whether the analysis is faithful on the values of the
graph or is a table of live ranges. -/
theorem sweep_agrees_with_pairwise (r : Round) (p : Procedure) (drawn : UInt64)
    (source : p.live.Faithful (p.live.nodes r.marked) ∨ ∃ t : LiveRangeTable, p.live = t.liveness) :
    EndAlike ((r.withBuild .sweep).run p drawn) ((r.withBuild .pairwise).run p drawn) := by
  have faithful : p.live.Faithful (p.live.nodes r.marked) := by
    rcases source with faithful | ⟨t, ht⟩
    · exact faithful
    · rw [ht]
      exact t.liveness_faithful _
  exact r.run_endAlike drawn faithful .sweep .pairwise

/-- Each of five values is live over three positions, one after the other. -/
def staircase : Procedure where
  live :=
    { values := [⟨4⟩, ⟨0⟩, ⟨3⟩, ⟨1⟩, ⟨2⟩, ⟨0⟩]
      overlaps := fun u v =>
        decide (u.id.toNat < v.id.toNat + 3) && decide (v.id.toNat < u.id.toNat + 3)
      spillable := fun _ => true
      hasRange := fun _ => true
      extent := fun v => some ⟨v.id.toNat, v.id.toNat + 3⟩ }
  candidates := fun _ => [⟨2⟩, ⟨1⟩]
  usage := ⟨fun _ => [], fun _ => 0, fun _ _ => .none⟩

theorem staircase_faithful (vs : List Value) : staircase.live.Faithful vs := by
  constructor
  · intro u v
    exact Bool.and_comm _ _
  · intro _ u _ v _ _ ho s t hs ht
    obtain ⟨hu, hv⟩ := (Bool.and_eq_true _ _).mp ho
    cases hs
    cases ht
    exact ⟨of_decide_eq_true hu, of_decide_eq_true hv⟩

theorem staircase_strategies_agree :
    staircase.live.Faithful (staircase.live.nodes (new (Config.default.withSeed 7)).marked) ∧
      EndAlike (((new (Config.default.withSeed 7)).withBuild .sweep).run staircase 0)
        (((new (Config.default.withSeed 7)).withBuild .pairwise).run staircase 0) ∧
      (((new (Config.default.withSeed 7)).withBuild .sweep).run staircase 0).2.graph.edgeCount =
        7 := by
  refine ⟨staircase_faithful _, ?_, ?_⟩
  · exact sweep_agrees_with_pairwise _ staircase 0 (.inl (staircase_faithful _))
  · decide +kernel

end Round

end RegisterColoring
