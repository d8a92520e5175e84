import RegisterColoring.Proofs.Collection
import RegisterColoring.Proofs.Coloring.Step
import RegisterColoring.Proofs.Graph.Strategy

/-!
Graphs of renamed values. Nodes are sorted by their numbers, pairs are asked in the order of their
numbers or starts, and an edge has its lower end first; a renaming that keeps the order of the
values takes each of these along: the nodes, the pairs that become edges, and the order in which the
nodes of a renamed graph are colored.
-/

namespace RegisterColoring

variable {V : Set Value} {R : Set Register} {f : Renaming V} {g : Renaming R}

namespace Extent

def rename (f : Renaming V) (e : Extent) : Extent := ⟨f e.value, e.span⟩

theorem precedes_rename_iff {d e : Extent} (hd : d.value ∈ V) (he : e.value ∈ V) :
    (d.rename f).Precedes (e.rename f) ↔ d.Precedes e := by
  simp only [Precedes, rename, f.lt_iff hd he]

end Extent

namespace Liveness

/-- The values that occur: those that are listed and those that are marked. -/
def occurring (live : Liveness) (marked : FiniteSet Value) : Set Value :=
  {v | v ∈ live.values ∨ v ∈ marked}

/-- The analysis `live'` answers about the renamed values of `V` what `live` answers about the
values themselves, and lists the renamed ones. -/
structure Renamed (f : Renaming V) (live live' : Liveness) : Prop where
  values : live'.values = live.values.map f
  overlaps : ∀ u ∈ V, ∀ v ∈ V, live'.overlaps (f u) (f v) = live.overlaps u v
  spillable : ∀ v ∈ V, live'.spillable (f v) = live.spillable v
  hasRange : ∀ v ∈ V, live'.hasRange (f v) = live.hasRange v
  extent : ∀ v ∈ V, live'.extent (f v) = live.extent v

namespace Renamed

variable {live live' : Liveness}

section Listed

variable {m n : FiniteSet Value} {f : Renaming (live.occurring m)} (h : live.Renamed f live')

include h

theorem mem_values_iff {v : Value} (hv : v ∈ live.occurring m) :
    f v ∈ live'.values ↔ v ∈ live.values := by
  rw [h.values, f.mem_map_iff (fun _ => .inl) hv]

theorem nodes (marks : m.Renamed f n) : live'.nodes n = (live.nodes m).map f := by
  have occur : ∀ v ∈ live.nodes m, v ∈ live.occurring m := fun v hv => .inl (mem_nodes.mp hv).1
  apply eq_of_strict_of_mem_iff (live'.nodes_strict n) (f.pairwise_map occur (live.nodes_strict m))
  intro w
  rw [mem_nodes, h.values, List.mem_map, List.mem_map]
  constructor
  · rintro ⟨⟨v, hv, rfl⟩, hrange, hmarked⟩
    rw [h.hasRange v (.inl hv)] at hrange
    rw [f.mem_renamed_iff (fun _ => .inr) marks (.inl hv)] at hmarked
    exact ⟨v, mem_nodes.mpr ⟨hv, hrange, hmarked⟩, rfl⟩
  · rintro ⟨v, hv, rfl⟩
    obtain ⟨hlisted, hrange, hmarked⟩ := mem_nodes.mp hv
    rw [h.hasRange v (.inl hlisted), f.mem_renamed_iff (fun _ => .inr) marks (.inl hlisted)]
    exact ⟨⟨v, hlisted, rfl⟩, hrange, hmarked⟩

end Listed

section Pairs

variable (h : live.Renamed f live') {vs : List Value} (occur : ∀ v ∈ vs, v ∈ V)

include h occur

theorem mem_pairwise (strict : vs.Pairwise (· < ·)) {w x : Value} :
    (w, x) ∈ live'.pairwise (vs.map f) ↔
      ∃ u v, (u, v) ∈ live.pairwise vs ∧ f u = w ∧ f v = x := by
  rw [Liveness.mem_pairwise (f.pairwise_map occur strict)]
  constructor
  · rintro ⟨hw, hx, hlt, ho⟩
    obtain ⟨u, hu, rfl⟩ := List.mem_map.mp hw
    obtain ⟨v, hv, rfl⟩ := List.mem_map.mp hx
    rw [f.lt_iff (occur u hu) (occur v hv)] at hlt
    rw [h.overlaps u (occur u hu) v (occur v hv)] at ho
    exact ⟨u, v, (Liveness.mem_pairwise strict).mpr ⟨hu, hv, hlt, ho⟩, rfl, rfl⟩
  · rintro ⟨u, v, hp, rfl, rfl⟩
    obtain ⟨hu, hv, hlt, ho⟩ := (Liveness.mem_pairwise strict).mp hp
    rw [f.lt_iff (occur u hu) (occur v hv), h.overlaps u (occur u hu) v (occur v hv)]
    exact ⟨List.mem_map_of_mem hu, List.mem_map_of_mem hv, hlt, ho⟩

theorem extents? :
    live'.extents? (vs.map f) = (live.extents? vs).map (List.map (Extent.rename f)) := by
  induction vs with
  | nil => rfl
  | cons v vs ih =>
    have ih := ih fun w hw => occur w (List.mem_cons_of_mem _ hw)
    unfold Liveness.extents? at ih ⊢
    rw [List.map_cons, List.mapM_cons, List.mapM_cons, ih, h.extent v (occur v List.mem_cons_self)]
    cases live.extent v with
    | none => rfl
    | some s =>
      cases vs.mapM fun v => (live.extent v).map (Extent.mk v) with
      | none => rfl
      | some es => rfl

/-- Equal starts are told apart by the numbers of the values, whose order is kept. -/
theorem mem_sweep {es : List Extent} (strict : vs.Pairwise (· < ·))
    (hmap : es.map Extent.value = vs) {w x : Value} :
    (w, x) ∈ live'.sweep (es.map (Extent.rename f)) ↔
      ∃ u v, (u, v) ∈ live.sweep es ∧ f u = w ∧ f v = x := by
  have distinct : (es.map Extent.value).Nodup := hmap ▸ nodup_of_strict strict
  have distinct' : ((es.map (Extent.rename f)).map Extent.value).Nodup := by
    have hvalues : (es.map (Extent.rename f)).map Extent.value = vs.map f := by
      rw [← hmap, List.map_map, List.map_map]
      rfl
    rw [hvalues]
    exact nodup_of_strict (f.pairwise_map occur strict)
  have hvalue : ∀ e ∈ es, e.value ∈ V := fun e he => occur _ (hmap ▸ List.mem_map_of_mem he)
  rw [Liveness.mem_sweep distinct']
  constructor
  · rintro ⟨_, hd', _, he', rfl, rfl, hbefore, hlt, ho⟩
    obtain ⟨d, hd, rfl⟩ := List.mem_map.mp hd'
    obtain ⟨e, he, rfl⟩ := List.mem_map.mp he'
    rw [Extent.precedes_rename_iff (hvalue d hd) (hvalue e he)] at hbefore
    have ho : live.overlaps d.value e.value = true :=
      (h.overlaps _ (hvalue d hd) _ (hvalue e he)).symm.trans ho
    exact ⟨d.value, e.value,
      (Liveness.mem_sweep distinct).mpr ⟨d, hd, e, he, rfl, rfl, hbefore, hlt, ho⟩, rfl, rfl⟩
  · rintro ⟨_, _, hp, rfl, rfl⟩
    obtain ⟨d, hd, e, he, rfl, rfl, hbefore, hlt, ho⟩ := (Liveness.mem_sweep distinct).mp hp
    refine ⟨d.rename f, List.mem_map_of_mem hd, e.rename f, List.mem_map_of_mem he, rfl, rfl, ?_⟩
    rw [Extent.precedes_rename_iff (hvalue d hd) (hvalue e he),
      h.overlaps _ (hvalue d hd) _ (hvalue e he)]
    exact ⟨hbefore, hlt, ho⟩

theorem mem_linked (strict : vs.Pairwise (· < ·)) {strategy : BuildStrategy} {w x : Value} :
    (w, x) ∈ live'.linked strategy (vs.map f) ↔
      ∃ u v, (u, v) ∈ live.linked strategy vs ∧ f u = w ∧ f v = x := by
  cases strategy with
  | pairwise => exact h.mem_pairwise occur strict
  | sweep =>
    rw [linked, linked, h.extents? occur]
    cases hes : live.extents? vs with
    | none => exact h.mem_pairwise occur strict
    | some es => exact h.mem_sweep occur strict (extents?_eq_some hes).1

end Pairs

end Renamed

end Liveness

namespace Graph

/-- The graph `h` is `g` with its nodes renamed, as far as the coloring pass looks at it. -/
structure Renamed (f : Renaming V) (g h : Graph) : Prop where
  occur : ∀ v ∈ g.nodes, v ∈ V
  ends : ∀ u v, v ∈ g.neighbors u → v ∈ g.nodes
  nodes : g.nodes.Renamed f h.nodes
  neighbors : ∀ v ∈ g.nodes, (g.neighbors v).Renamed f (h.neighbors (f v))
  degree : ∀ v ∈ g.nodes, h.degree (f v) = g.degree v

theorem Renamed.occur_of_mem_neighbors {g h : Graph} (renamed : g.Renamed f h) {u v : Value}
    (hv : v ∈ g.neighbors u) : v ∈ V := renamed.occur v (renamed.ends u v hv)

theorem Renamed.byDegree {g h : Graph} (renamed : g.Renamed f h) :
    h.byDegree = g.byDegree.map f := by
  rw [Graph.byDegree, Graph.byDegree, f.sorted_renamed renamed.occur renamed.nodes]
  apply sortBy_map
  intro u hu v hv
  rw [FiniteSet.mem_sorted] at hu hv
  simp only [busier, renamed.degree u hu, renamed.degree v hv,
    f.le_iff (renamed.occur u hu) (renamed.occur v hv)]

end Graph

/-!
The coloring pass under a renaming. A color is a place in a list of candidates or a number of its
own, and the list is renamed in place; so the free places of a renamed node are the ones that were
free, both passes draw from lists of one length, and the colors are the same.
-/

namespace Round

variable {r s : Round}

/-- The round `s` is `r` with the values of `V` renamed by `f` and their registers by `g`. Colors,
pool and generator are the same. -/
structure Renamed (f : Renaming V) (g : Renaming R) (r s : Round) : Prop where
  exhaustion : s.config.exhaustion = r.config.exhaustion
  graph : r.graph.Renamed f s.graph
  candidates : ∀ v ∈ V, s.candidates.get? (f v) = (r.candidates.get? v).map (List.map g)
  offered : ∀ v ∈ V, ∀ reg ∈ r.candidatesOf v, reg ∈ R
  colors : ∀ v ∈ V, s.color? (f v) = r.color? v
  pool : s.pool = r.pool
  seed : s.seed = r.seed
  generator : s.generator = r.generator

namespace Renamed

theorem candidatesOf (h : r.Renamed f g s) {v : Value} (hv : v ∈ V) :
    s.candidatesOf (f v) = (r.candidatesOf v).map g := by
  rw [Round.candidatesOf, Round.candidatesOf, h.candidates v hv]
  cases r.candidates.get? v <;> rfl

theorem resolved? (h : r.Renamed f g s) {v : Value} (hv : v ∈ V) :
    s.resolved? (f v) = (r.resolved? v).map g := by
  rw [Round.resolved?, Round.resolved?, h.colors v hv, h.candidatesOf hv]
  cases r.color? v with
  | none => rfl
  | some c =>
    cases c with
    | real index => exact List.getElem?_map
    | extended id => rfl

section Node

variable (h : r.Renamed f g s) {v : Value} (hv : v ∈ r.graph.nodes)

include h hv

theorem mem_takenRegisters {reg : Register} (hreg : reg ∈ R) :
    g reg ∈ s.takenRegisters (f v) ↔ reg ∈ r.takenRegisters v := by
  have occur : ∀ n ∈ r.graph.neighbors v, n ∈ V := fun _ => h.graph.occur_of_mem_neighbors
  rw [Round.mem_takenRegisters, Round.mem_takenRegisters]
  constructor
  · rintro ⟨_, hn', hres⟩
    obtain ⟨n, hn, rfl⟩ := (h.graph.neighbors v hv _).mp hn'
    rw [h.resolved? (occur n hn)] at hres
    obtain ⟨other, hother, heq⟩ := Option.map_eq_some_iff.mp hres
    obtain ⟨index, _, hplace⟩ := resolved?_eq_some_iff.mp hother
    have hmem := h.offered n (occur n hn) other (List.mem_of_getElem? hplace)
    rw [g.eq_iff hmem hreg] at heq
    exact ⟨n, hn, heq ▸ hother⟩
  · rintro ⟨n, hn, hres⟩
    refine ⟨f n, (h.graph.neighbors v hv _).mpr ⟨n, hn, rfl⟩, ?_⟩
    rw [h.resolved? (occur n hn), hres]
    rfl

theorem mem_takenExtended {id : Int32} :
    id ∈ s.takenExtended (f v) ↔ id ∈ r.takenExtended v := by
  have occur : ∀ n ∈ r.graph.neighbors v, n ∈ V := fun _ => h.graph.occur_of_mem_neighbors
  rw [Round.mem_takenExtended, Round.mem_takenExtended]
  constructor
  · rintro ⟨_, hn', hcolor⟩
    obtain ⟨n, hn, rfl⟩ := (h.graph.neighbors v hv _).mp hn'
    exact ⟨n, hn, (h.colors n (occur n hn)).symm.trans hcolor⟩
  · rintro ⟨n, hn, hcolor⟩
    exact ⟨f n, (h.graph.neighbors v hv _).mpr ⟨n, hn, rfl⟩,
      (h.colors n (occur n hn)).trans hcolor⟩

/-- The places are the same, so there are as many of them to draw from. -/
theorem freeIndices : s.freeIndices (f v) = r.freeIndices v := by
  have occurs : v ∈ V := h.graph.occur v hv
  have hfree : (r.candidatesOf v).zipIdx.filter
        (fun c => decide (g c.1 ∉ s.takenRegisters (f v))) =
      (r.candidatesOf v).zipIdx.filter fun c => decide (c.1 ∉ r.takenRegisters v) := by
    apply List.filter_congr
    intro c hc
    have hreg := h.offered v occurs c.1 (List.fst_mem_of_mem_zipIdx hc)
    exact decide_eq_decide.mpr (not_congr (h.mem_takenRegisters hv hreg))
  rw [Round.freeIndices, Round.freeIndices, h.candidatesOf occurs, List.zipIdx_map,
    List.filter_map, List.map_map, ← hfree]
  rfl

theorem sameChoice : r.SameChoice s v (f v) where
  indices := (h.freeIndices hv).symm
  extended := freeExtended_congr h.exhaustion.symm h.pool.symm
    fun _ => (h.mem_takenExtended hv).symm
  pool := h.pool.symm
  generator := h.generator.symm

end Node

theorem selectColor (h : r.Renamed f g s) {v : Value} (hv : v ∈ r.graph.nodes) :
    (s.selectColor (f v)).1 = (r.selectColor v).1 ∧
      (r.selectColor v).2.Renamed f g (s.selectColor (f v)).2 := by
  obtain ⟨hcolor, hpool, hgenerator⟩ := (h.sameChoice hv).selectColor
  refine ⟨hcolor.symm, ?_⟩
  rw [(r.selects_selectColor v).frame, (s.selects_selectColor (f v)).frame]
  exact { h with pool := hpool.symm, generator := hgenerator.symm }

theorem withColors (h : r.Renamed f g s) {cs cs' : FiniteMap Value Color}
    (colors : ∀ v ∈ V, cs'.get? (f v) = cs.get? v) (l m : List Event) :
    ({ r with colors := cs, log := l } : Round).Renamed f g { s with colors := cs', log := m } :=
  { h with colors := colors }

/-- One step keeps the renaming: no other value of `V` is renamed to where the color goes. -/
theorem colorNode (h : r.Renamed f g s) {v : Value} (hv : v ∈ r.graph.nodes) :
    (r.colorNode v).Renamed f g (s.colorNode (f v)) := by
  obtain ⟨hcolor, hnext⟩ := h.selectColor hv
  have hcolors : ∀ w ∈ V, (s.colorNode (f v)).color? (f w) = (r.colorNode v).color? w := by
    intro w hw
    rw [color?_colorNode, color?_colorNode, hcolor, h.colors w hw]
    simp only [f.eq_iff hw (h.graph.occur v hv)]
  exact hnext.withColors hcolors _ _

theorem colorAll (h : r.Renamed f g s) {vs : List Value} (nodes : ∀ v ∈ vs, v ∈ r.graph.nodes) :
    (r.colorAll vs).Renamed f g (s.colorAll (vs.map f)) := by
  induction vs generalizing r s with
  | nil => exact h
  | cons v vs ih =>
    apply ih (h.colorNode (nodes v List.mem_cons_self))
    intro w hw
    rw [(r.colorNode_sameProblem v).graph]
    exact nodes w (List.mem_cons_of_mem _ hw)

theorem withLog (h : r.Renamed f g s) (l m : List Event) :
    ({ r with log := l } : Round).Renamed f g { s with log := m } := { h with }

end Renamed

end Round

end RegisterColoring
