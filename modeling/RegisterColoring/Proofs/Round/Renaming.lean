import RegisterColoring.Proofs.Coloring.Renaming
import RegisterColoring.Proofs.Round.Failure

/-!
Renamed procedures. The graph of a renamed procedure is the renamed graph, and the candidates of its
nodes are renamed in place; so a renamed round stands at the start of the coloring pass.
-/

namespace RegisterColoring

variable {V : Set Value} {R : Set Register} {f : Renaming V} {g : Renaming R}

/-- A renamed value is referenced where the value was, and used there alike. -/
structure Usage.Renamed (f : Renaming V) (u u' : Usage) : Prop where
  references : ∀ v ∈ V, u'.references (f v) = u.references v
  access : ∀ v ∈ V, ∀ i ∈ u.references v, u'.access (f v) i = u.access v i
  loopDepth : ∀ v ∈ V, ∀ i ∈ u.references v, u'.loopDepth i = u.loopDepth i

theorem Usage.Renamed.weight {u u' : Usage} (h : u.Renamed f u') {v : Value} (hv : v ∈ V) :
    u'.weight (f v) = u.weight v := by
  have hterms : u'.costTerms (f v) = u.costTerms v := by
    rw [costTerms, h.references v hv]
    apply List.map_congr_left
    intro i hi
    rw [h.access v hv i hi, h.loopDepth v hv i hi]
  rw [Usage.weight, Usage.cost, hterms, Usage.weight, Usage.cost]

namespace Procedure

/-- The registers that occur in the candidates of `V`. -/
def offered (p : Procedure) (V : Set Value) : Set Register := {reg | ∃ v ∈ V, reg ∈ p.candidates v}

/-- The procedure `q` is `p` with its values renamed by `f` and its registers by `g`. What it
answers about other values is left open. -/
structure Renamed (f : Renaming V) (g : Renaming R) (p q : Procedure) : Prop where
  live : p.live.Renamed f q.live
  candidates : ∀ v ∈ V, q.candidates (f v) = (p.candidates v).map g
  usage : p.usage.Renamed f q.usage

end Procedure

namespace Liveness

variable {live live' : Liveness} {m n : FiniteSet Value} {strategy : BuildStrategy}

theorem mem_nodes_of_mem_neighbors {u v : Value}
    (h : v ∈ (live.graph strategy m).neighbors u) : v ∈ live.nodes m := by
  rw [graph_consistent.mem_neighbors, interferes_graph_iff_linked] at h
  rcases h.2 with hp | hp
  · exact (mem_of_mem_linked (live.nodes_strict m) hp).2
  · exact (mem_of_mem_linked (live.nodes_strict m) hp).1

theorem occurs_of_mem_nodes {v : Value} (h : v ∈ live.nodes m) : v ∈ live.occurring m :=
  .inl (mem_nodes.mp h).1

namespace Renamed

variable {f : Renaming (live.occurring m)} (h : live.Renamed f live') (marks : m.Renamed f n)

include h marks

theorem interferes_graph {u v : Value} (hu : u ∈ live.nodes m) (hv : v ∈ live.nodes m) :
    (live'.graph strategy n).interferes (f u) (f v) = true ↔
      (live.graph strategy m).interferes u v = true := by
  have occur : ∀ v ∈ live.nodes m, v ∈ live.occurring m := fun _ => occurs_of_mem_nodes
  have strict := live.nodes_strict m
  have hpair : ∀ {a b : Value}, a ∈ live.nodes m → b ∈ live.nodes m →
      ((f a, f b) ∈ live'.linked strategy ((live.nodes m).map f) ↔
        (a, b) ∈ live.linked strategy (live.nodes m)) := by
    intro a b ha hb
    rw [h.mem_linked occur strict]
    constructor
    · rintro ⟨c, d, hp, hc, hd⟩
      obtain ⟨hcn, hdn⟩ := mem_of_mem_linked strict hp
      rw [f.eq_iff (occur c hcn) (occur a ha)] at hc
      rw [f.eq_iff (occur d hdn) (occur b hb)] at hd
      rwa [hc, hd] at hp
    · exact fun hp => ⟨a, b, hp, rfl, rfl⟩
  rw [interferes_graph_iff_linked, interferes_graph_iff_linked, h.nodes marks, hpair hu hv,
    hpair hv hu, Ne, f.eq_iff (occur u hu) (occur v hv)]

theorem neighbors_graph {v : Value} (hv : v ∈ live.nodes m) :
    ((live.graph strategy m).neighbors v).Renamed f ((live'.graph strategy n).neighbors (f v)) := by
  intro w
  constructor
  · intro hw
    have hnode := mem_nodes_of_mem_neighbors hw
    rw [h.nodes marks] at hnode
    obtain ⟨u, hu, rfl⟩ := List.mem_map.mp hnode
    rw [graph_consistent.mem_neighbors, h.interferes_graph marks hv hu] at hw
    exact ⟨u, (graph_consistent.mem_neighbors v u).mpr hw, rfl⟩
  · rintro ⟨u, hu, rfl⟩
    have hnode := mem_nodes_of_mem_neighbors hu
    rw [graph_consistent.mem_neighbors] at hu ⊢
    exact (h.interferes_graph marks hv hnode).mpr hu

theorem graph : (live.graph strategy m).Renamed f (live'.graph strategy n) where
  occur _ hv := occurs_of_mem_nodes (mem_nodes_graph.mp hv)
  ends _ _ hv := mem_nodes_graph.mpr (mem_nodes_of_mem_neighbors hv)
  nodes w := by
    rw [mem_nodes_graph, h.nodes marks, List.mem_map]
    simp only [mem_nodes_graph]
  neighbors _ hv := h.neighbors_graph marks (mem_nodes_graph.mp hv)
  degree v hv := by
    have occur : ∀ u ∈ (live.graph strategy m).neighbors v, u ∈ live.occurring m :=
      fun _ hu => occurs_of_mem_nodes (mem_nodes_of_mem_neighbors hu)
    rw [graph_consistent.degree_eq, graph_consistent.degree_eq]
    exact f.size_renamed occur (h.neighbors_graph marks (mem_nodes_graph.mp hv))

end Renamed

end Liveness

namespace Round

section Load

variable {r s : Round} {p q : Procedure} {drawn drawn' : UInt64}

theorem exhaustion_load : (r.load p drawn).config.exhaustion = r.config.exhaustion := by
  rw [(r.load_sameProblem p drawn).config]
  rfl

theorem seed_load : (r.load p drawn).seed = r.config.seed.getD drawn :=
  (r.load_sameProblem p drawn).seed

theorem generator_load :
    (r.load p drawn).generator = .ofSeed (r.config.seed.getD drawn) := by
  obtain ⟨log, h⟩ := r.load_eq p drawn
  rw [h]
  rfl

theorem mem_of_mem_candidatesOf_load {v : Value} {reg : Register}
    (h : reg ∈ (r.load p drawn).candidatesOf v) : reg ∈ p.candidates v := by
  rw [candidatesOf, candidates_load] at h
  split at h
  · exact FiniteSet.mem_ofList.mp (FiniteSet.mem_sorted.mp h)
  · cases h

theorem load_renamed {f : Renaming (p.live.occurring r.marked)}
    {g : Renaming (p.offered (p.live.occurring r.marked))} (config : r.config = s.config)
    (seed : r.config.seed.getD drawn = s.config.seed.getD drawn')
    (marks : r.marked.Renamed f s.marked) (renamed : p.Renamed f g q) :
    (r.load p drawn).Renamed f g (s.load q drawn') := by
  have graph : (r.load p drawn).graph.Renamed f (s.load q drawn').graph := by
    rw [load_graph, load_graph, ← config]
    exact renamed.live.graph marks
  refine ⟨?_, graph, ?_, ?_, ?_, ?_, ?_, ?_⟩
  · rw [exhaustion_load, exhaustion_load, config]
  · intro v hv
    have occur : ∀ w ∈ (r.load p drawn).graph.nodes.sorted, w ∈ p.live.occurring r.marked :=
      fun w hw => graph.occur w (FiniteSet.mem_sorted.mp hw)
    have hstored : (s.load q drawn').graph.nodes.sorted.takeWhile
          (fun w => !(q.candidates w).isEmpty) =
        ((r.load p drawn).graph.nodes.sorted.takeWhile
          fun w => !(p.candidates w).isEmpty).map f := by
      rw [f.sorted_renamed graph.occur graph.nodes]
      apply takeWhile_map
      intro w hw
      rw [renamed.candidates w (occur w hw), List.isEmpty_map]
    rw [candidates_load, candidates_load, hstored, renamed.candidates v hv,
      g.sorted_ofList_map fun reg hreg => ⟨v, hv, hreg⟩]
    simp only [f.mem_map_iff (fun w hw => occur w (List.takeWhile_subset _ hw)) hv]
    split <;> rfl
  · exact fun v hv reg hreg => ⟨v, hv, mem_of_mem_candidatesOf_load hreg⟩
  · intro v _
    rw [load_uncolored.color?_eq, load_uncolored.color?_eq]
  · rw [load_uncolored.pool, load_uncolored.pool]
  · rw [seed_load, seed_load, seed]
  · rw [generator_load, generator_load, seed]

end Load

end Round

/-!
Numbers matter by their order alone. Values and registers are known by numbers, and a run looks at
them only to put nodes, pairs and candidates in order; so a renaming that keeps the order of what
occurs goes through the whole run: the same colors are drawn, and the outcome is the renamed one.
-/

namespace AllocError

def rename (f : Value → Value) (g : Register → Register) : AllocError → AllocError
  | unspillable v => unspillable (f v)
  | noCandidates v => noCandidates (f v)
  | missingArc u v => missingArc (f u) (f v)
  | selfLoop v => selfLoop (f v)
  | wrongDegree v degree neighbors => wrongDegree (f v) degree neighbors
  | sharedRegister u v register => sharedRegister (f u) (f v) (g register)

end AllocError

def Decision.rename (g : Register → Register) : Decision → Decision
  | assign r => assign (g r)
  | spill => spill

namespace Fate

def rename (g : Register → Register) : Fate → Fate
  | assigned r preference => assigned (g r) (preference.map g)
  | unresolved => unresolved
  | spilled => spilled

theorem decision?_rename (g : Register → Register) (φ : Fate) :
    (φ.rename g).decision? = φ.decision?.map (Decision.rename g) := by
  cases φ <;> rfl

theorem preference?_rename (g : Register → Register) (φ : Fate) :
    (φ.rename g).preference? = φ.preference?.map (List.map g) := by
  cases φ <;> rfl

end Fate

/-- The allocation `b` is `a` with its values renamed by `f` and its registers by `g`. -/
structure Allocation.Renamed (f : Value → Value) (g : Register → Register) (a b : Allocation) :
    Prop where
  decisions : a.decisions.Renamed f (Decision.rename g) b.decisions
  weights : a.weights.Renamed f id b.weights
  preferences : a.preferences.Renamed f (List.map g) b.preferences
  seed : b.seed = a.seed
  extendedColors : b.extendedColors = a.extendedColors

/-- The second outcome is the first one renamed: the renamed error, or the renamed allocation. -/
inductive RenamedOutcome (f : Value → Value) (g : Register → Register) :
    Except AllocError Allocation → Except AllocError Allocation → Prop where
  | error (e : AllocError) : RenamedOutcome f g (.error e) (.error (e.rename f g))
  | ok {a b : Allocation} (renamed : a.Renamed f g b) : RenamedOutcome f g (.ok a) (.ok b)

/-- The fates `fs'` are those of `fs` with values renamed by `f` and registers by `g`. -/
def RenamedFates (f : Value → Value) (g : Register → Register) (fs fs' : List (Value × Fate)) :
    Prop :=
  ∀ w ψ, (w, ψ) ∈ fs' ↔ ∃ v φ, (v, φ) ∈ fs ∧ f v = w ∧ φ.rename g = ψ

/-- What is read off the fates is renamed when reading a renamed fate gives the renamed answer. -/
theorem RenamedFates.read {f : Value → Value} {g : Register → Register}
    {fs fs' : List (Value × Fate)} (renamed : RenamedFates f g fs fs') {β : Type}
    {read : Fate → Option β} {k : β → β}
    (natural : ∀ φ : Fate, read (φ.rename g) = (read φ).map k) {m n : FiniteMap Value β}
    (hm : ∀ v d, m.get? v = some d ↔ ∃ φ, (v, φ) ∈ fs ∧ read φ = some d)
    (hn : ∀ w d, n.get? w = some d ↔ ∃ ψ, (w, ψ) ∈ fs' ∧ read ψ = some d) : m.Renamed f k n := by
  intro w d
  rw [hn]
  constructor
  · rintro ⟨ψ, hψ, hd⟩
    obtain ⟨v, φ, hφ, rfl, rfl⟩ := (renamed w ψ).mp hψ
    rw [natural] at hd
    obtain ⟨b, hb, rfl⟩ := Option.map_eq_some_iff.mp hd
    exact ⟨v, b, (hm v b).mpr ⟨φ, hφ, hb⟩, rfl, rfl⟩
  · rintro ⟨v, b, hb, rfl, rfl⟩
    obtain ⟨φ, hφ, hread⟩ := (hm v b).mp hb
    refine ⟨φ.rename g, (renamed _ _).mpr ⟨v, φ, hφ, rfl, rfl⟩, ?_⟩
    rw [natural, hread, Option.map_some]

namespace Liveness.Renamed

variable {live live' : Liveness} {m n : FiniteSet Value} {f : Renaming (live.occurring m)}
  (h : live.Renamed f live') (marks : m.Renamed f n)

include h marks

theorem mem_markedLive {w : Value} : w ∈ Round.markedLive live' n ↔
    ∃ v, v ∈ Round.markedLive live m ∧ f v = w := by
  rw [Round.mem_markedLive]
  constructor
  · rintro ⟨hw, hlisted, hrange⟩
    obtain ⟨v, hv, rfl⟩ := (marks w).mp hw
    rw [h.mem_values_iff (.inr hv)] at hlisted
    rw [h.hasRange v (.inr hv)] at hrange
    exact ⟨v, Round.mem_markedLive.mpr ⟨hv, hlisted, hrange⟩, rfl⟩
  · rintro ⟨v, hmem, rfl⟩
    obtain ⟨hv, hlisted, hrange⟩ := Round.mem_markedLive.mp hmem
    rw [h.mem_values_iff (.inr hv), h.hasRange v (.inr hv)]
    exact ⟨(marks _).mpr ⟨v, hv, rfl⟩, hlisted, hrange⟩

theorem refused : live'.refused n = f.map '' live.refused m := by
  have hlive : ∀ {live : Liveness} {m : FiniteSet Value} {v : Value}, v ∈ live.refused m ↔
      v ∈ Round.markedLive live m ∧ live.spillable v = false := by
    intro live m v
    rw [Round.mem_markedLive, and_assoc, and_assoc]
    rfl
  ext w
  rw [hlive, h.mem_markedLive marks]
  constructor
  · rintro ⟨⟨v, hv, rfl⟩, hspill⟩
    rw [h.spillable v (.inr (Round.mem_markedLive.mp hv).1)] at hspill
    exact ⟨v, hlive.mpr ⟨hv, hspill⟩, rfl⟩
  · rintro ⟨v, hv, rfl⟩
    obtain ⟨hmem, hspill⟩ := hlive.mp hv
    rw [← h.spillable v (.inr hv.1)] at hspill
    exact ⟨⟨v, hmem, rfl⟩, hspill⟩

end Liveness.Renamed

namespace Round

namespace Renamed

variable {r s : Round} {p q : Procedure} (h : r.Renamed f g s)

include h

theorem starved (renamed : p.Renamed f g q) : s.starved q = f.map '' r.starved p := by
  ext w
  constructor
  · rintro ⟨hw, hnone⟩
    obtain ⟨v, hv, rfl⟩ := (h.graph.nodes w).mp hw
    rw [renamed.candidates v (h.graph.occur v hv), List.map_eq_nil_iff] at hnone
    exact ⟨v, ⟨hv, hnone⟩, rfl⟩
  · rintro ⟨v, ⟨hv, hnone⟩, rfl⟩
    refine ⟨(h.graph.nodes _).mpr ⟨v, hv, rfl⟩, ?_⟩
    rw [renamed.candidates v (h.graph.occur v hv), hnone, List.map_nil]

theorem stranded (renamed : p.Renamed f g q) :
    s.stranded q.live = f.map '' r.stranded p.live := by
  ext w
  constructor
  · rintro ⟨hw, hspill, hcolor⟩
    obtain ⟨v, hv, rfl⟩ := (h.graph.nodes w).mp hw
    rw [renamed.live.spillable v (h.graph.occur v hv)] at hspill
    rw [h.colors v (h.graph.occur v hv)] at hcolor
    exact ⟨v, ⟨hv, hspill, hcolor⟩, rfl⟩
  · rintro ⟨v, ⟨hv, hspill, hcolor⟩, rfl⟩
    rw [← renamed.live.spillable v (h.graph.occur v hv)] at hspill
    rw [← h.colors v (h.graph.occur v hv)] at hcolor
    exact ⟨(h.graph.nodes _).mpr ⟨v, hv, rfl⟩, hspill, hcolor⟩

theorem fateOf {v : Value} (hv : v ∈ V) (c : Color) :
    s.fateOf (f v) c = (r.fateOf v c).rename g := by
  cases c with
  | extended id => rfl
  | real index =>
    rw [Round.fateOf, Round.fateOf, h.candidatesOf hv, List.getElem?_map]
    cases (r.candidatesOf v)[index]? with
    | none => rfl
    | some reg => exact congrArg (Fate.assigned (g reg)) (rotateLeft_map g.map _ index)

end Renamed

section Run

variable {r s : Round} {p q : Procedure} {drawn drawn' : UInt64}

/-- A run that stops before the coloring pass leaves its round as it was loaded, and so does the
renamed run; otherwise both color their nodes in the same order. -/
theorem run_renamed_of_load (h : (r.load p drawn).Renamed f g (s.load q drawn'))
    (renamed : p.Renamed f g q) : (r.run p drawn).2.Renamed f g (s.run q drawn').2 := by
  have hstarved := h.starved renamed
  cases reached : (r.load p drawn).candidateFault? p.candidates with
  | some e =>
    obtain ⟨v, _, least⟩ := isLeast_of_candidateFault? reached
    have least' : IsLeast ((s.load q drawn').starved q) (f v) := by
      rw [hstarved]
      exact f.isLeast_image (fun w hw => h.graph.occur w hw.1) least
    rw [run_of_starved least, run_of_starved least']
    exact h
  | none =>
    have reached' : (s.load q drawn').candidateFault? q.candidates = none := by
      rw [candidateFault?_eq_none_iff_starved, hstarved,
        candidateFault?_eq_none_iff_starved.mp reached, Set.image_empty]
    obtain ⟨log, hr⟩ := run_of_reached reached
    obtain ⟨log', hs⟩ := run_of_reached reached'
    rw [hr, hs, h.graph.byDegree]
    exact (h.colorAll fun v hv => Graph.mem_byDegree.mp hv).withLog log log'

section Outcome

variable {f : Renaming (p.live.occurring r.marked)}
  {g : Renaming (p.offered (p.live.occurring r.marked))}
  (h : (r.run p drawn).2.Renamed f g (s.run q drawn').2)
  (marks : r.marked.Renamed f s.marked) (renamed : p.Renamed f g q)

include h marks renamed

theorem run_error_renamed {e : AllocError} (failed : (r.run p drawn).1 = .error e) :
    (s.run q drawn').1 = .error (e.rename f g) := by
  rw [run_error_iff] at failed ⊢
  rw [h.starved renamed, h.stranded renamed, renamed.live.refused marks]
  rcases failed with ⟨v, rfl, least⟩ | ⟨hnone, v, rfl, least | ⟨hkept, least⟩⟩
  · exact .inl ⟨f v, rfl, f.isLeast_image (fun w hw => h.graph.occur w hw.1) least⟩
  · rw [hnone, Set.image_empty]
    exact .inr ⟨rfl, f v, rfl,
      .inl (f.isLeast_image (fun w hw => h.graph.occur w hw.1) least)⟩
  · rw [hnone, hkept, Set.image_empty]
    exact .inr ⟨rfl, f v, rfl, .inr ⟨rfl, f.isLeast_image (fun _ hw => .inr hw.1) least⟩⟩

theorem run_ok_renamed (ok : ∃ a, (r.run p drawn).1 = .ok a) :
    ∃ b, (s.run q drawn').1 = .ok b := by
  obtain ⟨hnone, hkept, hspillable⟩ := run_ok_iff.mp ok
  rw [run_ok_iff, h.starved renamed, h.stranded renamed, renamed.live.refused marks, hnone, hkept,
    hspillable, Set.image_empty]
  exact ⟨rfl, rfl, rfl⟩

variable {a b : Allocation} (ok : (r.run p drawn).1 = .ok a) (ok' : (s.run q drawn').1 = .ok b)

include ok ok'

theorem fates_renamed : RenamedFates f g ((r.run p drawn).2.fates p.live r.marked)
    ((s.run q drawn').2.fates q.live s.marked) := by
  intro w ψ
  rw [mem_fates]
  constructor
  · rintro (⟨c, hc, rfl⟩ | ⟨hw, rfl⟩)
    · obtain ⟨v, hv, rfl⟩ := (h.graph.nodes w).mp (nodes_of_colored (ok_reached ok') w c hc)
      have occurs := h.graph.occur v hv
      rw [h.colors v occurs] at hc
      exact ⟨v, _, mem_fates.mpr (.inl ⟨c, hc, rfl⟩), rfl, (h.fateOf occurs c).symm⟩
    · obtain ⟨v, hv, rfl⟩ := (renamed.live.mem_markedLive marks).mp hw
      exact ⟨v, .spilled, mem_fates.mpr (.inr ⟨hv, rfl⟩), rfl, rfl⟩
  · rintro ⟨v, φ, hφ, rfl, rfl⟩
    rcases mem_fates.mp hφ with ⟨c, hc, rfl⟩ | ⟨hv, rfl⟩
    · have occurs := h.graph.occur v (nodes_of_colored (ok_reached ok) v c hc)
      exact .inl ⟨c, (h.colors v occurs).trans hc, (h.fateOf occurs c).symm⟩
    · exact .inr ⟨(renamed.live.mem_markedLive marks).mpr ⟨v, hv, rfl⟩, rfl⟩

theorem weights_renamed : a.weights.Renamed f id b.weights := by
  intro w x
  rw [weights_run_iff ok']
  constructor
  · rintro ⟨hw, rfl⟩
    obtain ⟨v, hv, occurs, rfl⟩ : ∃ v, (v ∈ (r.run p drawn).2.graph.nodes ∨ v ∈ r.marked) ∧
        v ∈ p.live.occurring r.marked ∧ f v = w := by
      rcases hw with hw | hw
      · obtain ⟨v, hv, rfl⟩ := (h.graph.nodes w).mp hw
        exact ⟨v, .inl hv, h.graph.occur v hv, rfl⟩
      · obtain ⟨v, hv, rfl⟩ := (marks w).mp hw
        exact ⟨v, .inr hv, .inr hv, rfl⟩
    rw [renamed.usage.weight occurs]
    exact ⟨v, _, (weights_run_iff ok).mpr ⟨hv, rfl⟩, rfl, rfl⟩
  · rintro ⟨v, x, hx, rfl, rfl⟩
    obtain ⟨hv, rfl⟩ := (weights_run_iff ok).mp hx
    rcases hv with hv | hv
    · exact ⟨.inl ((h.graph.nodes _).mpr ⟨v, hv, rfl⟩),
        (renamed.usage.weight (h.graph.occur v hv)).symm⟩
    · exact ⟨.inr ((marks _).mpr ⟨v, hv, rfl⟩), (renamed.usage.weight (.inr hv)).symm⟩

theorem allocation_renamed : a.Renamed f g b := by
  have fates := fates_renamed h marks renamed ok ok'
  have ha := (conclude_ok ok).2
  have hb := (conclude_ok ok').2
  rw [← run_eq_conclude] at ha hb
  refine ⟨?_, weights_renamed h marks renamed ok ok', ?_, ?_, ?_⟩
  · exact fates.read (Fate.decision?_rename g) (fun _ _ => decision?_iff_fate ok)
      fun _ _ => decision?_iff_fate ok'
  · exact fates.read (Fate.preference?_rename g) (fun _ _ => preference?_iff_fate ok)
      fun _ _ => preference?_iff_fate ok'
  · rw [ha, hb]
    exact h.seed
  · rw [ha, hb]
    exact congrArg List.length h.pool

end Outcome

end Run

/-- A renaming that keeps the order of the values and registers that occur renames the outcome of a
run and leaves the colors as they are. -/
theorem numbers_matter_by_their_order (r s : Round) (p q : Procedure) (seed drawn drawn' : UInt64)
    (f : Renaming (p.live.occurring r.marked))
    (g : Renaming (p.offered (p.live.occurring r.marked)))
    (config : r.config = s.config) (configured : s.config.seed = some seed)
    (marks : r.marked.Renamed f s.marked) (renamed : p.Renamed f g q) :
    RenamedOutcome f g (r.run p drawn).1 (s.run q drawn').1 ∧
      (r.run p drawn).2.Renamed f g (s.run q drawn').2 ∧
      ∀ v ∈ p.live.occurring r.marked,
        (s.run q drawn').2.color? (f v) = (r.run p drawn).2.color? v := by
  have hseed : r.config.seed.getD drawn = s.config.seed.getD drawn' := by
    rw [config, configured]
    rfl
  have h : (r.run p drawn).2.Renamed f g (s.run q drawn').2 :=
    run_renamed_of_load (load_renamed config hseed marks renamed) renamed
  refine ⟨?_, h, h.colors⟩
  cases hr : (r.run p drawn).1 with
  | error e =>
    rw [run_error_renamed h marks renamed hr]
    exact .error e
  | ok a =>
    obtain ⟨b, hb⟩ := run_ok_renamed h marks renamed ⟨a, hr⟩
    rw [hb]
    exact .ok (allocation_renamed h marks renamed hr hb)

/-- The staircase with a marked step, and with a mark on a value that is not listed. -/
def climber : Round := (((new (Config.default.withSeed 7)).withBuild .sweep).mark ⟨4⟩).mark ⟨9⟩

def wideClimber : Round :=
  (((new (Config.default.withSeed 7)).withBuild .sweep).mark ⟨19⟩).mark ⟨34⟩

def widen (v : Value) : Value := ⟨3 * v.id + 7⟩

def narrow (v : Value) : Value := ⟨(v.id - 7) / 3⟩

def wideStaircase : Procedure where
  live :=
    { values := staircase.live.values.map widen
      overlaps := fun u v => staircase.live.overlaps (narrow u) (narrow v)
      spillable := fun v => staircase.live.spillable (narrow v)
      hasRange := fun v => staircase.live.hasRange (narrow v)
      extent := fun v => staircase.live.extent (narrow v) }
  candidates := fun _ => [⟨18⟩, ⟨9⟩]
  usage := staircase.usage

theorem narrow_widen {v : Value} (h : v ∈ staircase.live.occurring climber.marked) :
    narrow (widen v) = v := by
  have hall : ∀ v ∈ staircase.live.values ++ climber.marked.elems, narrow (widen v) = v := by
    decide
  exact hall v (List.mem_append.mpr h)

def widening : Renaming (staircase.live.occurring climber.marked) where
  map := widen
  increases x hx y hy := by
    have hall : ∀ x ∈ staircase.live.values ++ climber.marked.elems,
        ∀ y ∈ staircase.live.values ++ climber.marked.elems, x < y → widen x < widen y := by
      decide
    exact hall x (List.mem_append.mpr hx) y (List.mem_append.mpr hy)

def nineTimes : Renaming (staircase.offered (staircase.live.occurring climber.marked)) where
  map reg := ⟨9 * reg.id⟩
  increases x hx y hy := by
    have hall : ∀ x ∈ ([⟨2⟩, ⟨1⟩] : List Register), ∀ y ∈ ([⟨2⟩, ⟨1⟩] : List Register), x < y →
        (⟨9 * x.id⟩ : Register) < ⟨9 * y.id⟩ := by
      decide
    obtain ⟨_, _, hx⟩ := hx
    obtain ⟨_, _, hy⟩ := hy
    exact hall x hx y hy

theorem staircase_renamed : staircase.Renamed widening nineTimes wideStaircase where
  live :=
    { values := rfl
      overlaps := fun _ hu _ hv =>
        congrArg₂ staircase.live.overlaps (narrow_widen hu) (narrow_widen hv)
      spillable := fun _ hv => congrArg staircase.live.spillable (narrow_widen hv)
      hasRange := fun _ hv => congrArg staircase.live.hasRange (narrow_widen hv)
      extent := fun _ hv => congrArg staircase.live.extent (narrow_widen hv) }
  candidates _ _ := rfl
  usage := ⟨fun _ _ => rfl, fun _ _ _ _ => rfl, fun _ _ _ _ => rfl⟩

theorem wide_staircase_climbed_alike :
    climber.marked.Renamed widening wideClimber.marked ∧
      staircase.Renamed widening nineTimes wideStaircase ∧
      ∃ a b, (climber.run staircase 0).1 = .ok a ∧ (wideClimber.run wideStaircase 1).1 = .ok b ∧
        a.spilled = [⟨0⟩, ⟨3⟩, ⟨4⟩] ∧ b.spilled = [⟨7⟩, ⟨16⟩, ⟨19⟩] ∧
        a.Renamed widening nineTimes b ∧
        (wideClimber.run wideStaircase 1).2.color? ⟨16⟩ =
          (climber.run staircase 0).2.color? ⟨3⟩ := by
  have hclimb : (climber.run staircase 0).1.toOption.map Allocation.spilled =
      some [⟨0⟩, ⟨3⟩, ⟨4⟩] := by
    decide +kernel
  have hwide : (wideClimber.run wideStaircase 1).1.toOption.map Allocation.spilled =
      some [⟨7⟩, ⟨16⟩, ⟨19⟩] := by
    decide +kernel
  have hmarks : climber.marked.Renamed widening wideClimber.marked :=
    ((FiniteSet.Renamed.empty widening).insert ⟨4⟩).insert ⟨9⟩
  obtain ⟨houtcome, _, hcolors⟩ := numbers_matter_by_their_order climber wideClimber staircase
    wideStaircase 7 0 1 widening nineTimes rfl rfl hmarks staircase_renamed
  obtain ⟨a, ok, ha⟩ := exists_ok_of_spilled hclimb
  obtain ⟨b, ok', hb⟩ := exists_ok_of_spilled hwide
  refine ⟨hmarks, staircase_renamed, a, b, ok, ok', ha, hb, ?_, hcolors ⟨3⟩ (.inl (by decide))⟩
  rw [ok, ok'] at houtcome
  cases houtcome with
  | ok renamed => exact renamed

end Round

end RegisterColoring
