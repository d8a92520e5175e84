import RegisterColoring.Graph

/-!
The four tables of a graph in step. A graph is consistent when its edges are canonical pairs, its
neighbor sets say what its edges say, and its degrees count the neighbors. Every graph that is built
by adding nodes and edges is consistent, and consistent graphs with the same nodes and edges are
alike: they differ at most in the order of their tables.
-/

namespace RegisterColoring

namespace Edge

theorem between_of_lt {u v : Value} (h : u < v) : between u v = ⟨u, v⟩ := if_pos h

theorem low_lt_high_between {u v : Value} (distinct : u ≠ v) :
    (between u v).low < (between u v).high := by
  by_cases h : u < v
  · rw [between, if_pos h]
    exact h
  · rw [between, if_neg h]
    exact Std.lt_of_le_of_ne (Std.not_lt.mp h) distinct.symm

theorem between_low_high {e : Edge} (canonical : e.low < e.high) :
    between e.low e.high = e := between_of_lt canonical

theorem between_eq_iff {a b u v : Value} :
    between a b = between u v ↔ (a = u ∧ b = v) ∨ (a = v ∧ b = u) := by
  constructor
  · intro h
    by_cases hab : a < b <;> by_cases huv : u < v <;>
      simp only [between, hab, huv, ↓reduceIte, Edge.mk.injEq] at h
    · exact .inl h
    · exact .inr h
    · exact .inr ⟨h.2, h.1⟩
    · exact .inl ⟨h.2, h.1⟩
  · intro hw
    rcases hw with ⟨rfl, rfl⟩ | ⟨rfl, rfl⟩
    · rfl
    · exact between_comm _ _

end Edge

namespace Graph

/-- A step in the building of a graph. -/
inductive Edit where
  | addNode (v : Value)
  | addEdge (u v : Value)
  | clear
deriving DecidableEq

def edit (g : Graph) : Edit → Graph
  | .addNode v => g.addNode v
  | .addEdge u v => g.addEdge u v
  | .clear => .empty

def ofEdits (es : List Edit) : Graph := es.foldl edit .empty

structure Consistent (g : Graph) : Prop where
  canonical : ∀ e ∈ g.edges, e.low < e.high
  mem_neighbors : ∀ u v, v ∈ g.neighbors u ↔ g.interferes u v = true
  degree_eq : ∀ v, g.degree v = (g.neighbors v).size

theorem interferes_addEdge {g : Graph} {u v a b : Value} :
    (g.addEdge u v).interferes a b = true ↔
      g.interferes a b = true ∨ (u ≠ v ∧ Edge.between a b = .between u v) := by
  simp only [interferes, decide_eq_true_eq]
  exact mem_edges_addEdge

theorem interferes_addNode (g : Graph) (v a b : Value) :
    (g.addNode v).interferes a b = g.interferes a b := by
  rw [interferes, edges_addNode, interferes]

theorem interferes_low_high {g : Graph} {e : Edge} (canonical : e.low < e.high) :
    g.interferes e.low e.high = true ↔ e ∈ g.edges := by
  rw [interferes, Edge.between_low_high canonical, decide_eq_true_eq]

namespace Consistent

theorem irrefl {g : Graph} (h : g.Consistent) (v : Value) : g.interferes v v = false := by
  cases he : g.interferes v v with
  | false => rfl
  | true =>
    have hlt := h.canonical _ (of_decide_eq_true he)
    have hb : Edge.between v v = ⟨v, v⟩ := by simp [Edge.between]
    rw [hb] at hlt
    exact absurd hlt Std.lt_irrefl

theorem ne_of_interferes {g : Graph} (h : g.Consistent) {u v : Value}
    (hi : g.interferes u v = true) : u ≠ v := by
  rintro rfl
  rw [h.irrefl] at hi
  cases hi

theorem neighbors_symm {g : Graph} (h : g.Consistent) {u v : Value} (hv : v ∈ g.neighbors u) :
    u ∈ g.neighbors v := by
  rw [h.mem_neighbors] at hv ⊢
  rwa [interferes_comm]

theorem empty : Graph.empty.Consistent := by
  constructor
  · intro e he
    exact absurd he (FiniteSet.not_mem_empty e)
  · intro u v
    have hn : Graph.empty.interferes u v = false :=
      decide_eq_false (FiniteSet.not_mem_empty _)
    rw [hn]
    exact iff_of_false (FiniteSet.not_mem_empty v) Bool.false_ne_true
  · intro v
    rfl

theorem addNode {g : Graph} (h : g.Consistent) (v : Value) : (g.addNode v).Consistent := by
  constructor
  · intro e he
    rw [edges_addNode] at he
    exact h.canonical e he
  · intro u w
    rw [neighbors_addNode, interferes_addNode]
    exact h.mem_neighbors u w
  · intro w
    rw [degree_addNode, neighbors_addNode]
    exact h.degree_eq w

/-- A new edge enters the neighbor sets of its ends, where neither end stood before. -/
theorem addEdge {g : Graph} (h : g.Consistent) (u v : Value) : (g.addEdge u v).Consistent := by
  by_cases huv : u = v
  · subst huv
    rw [addEdge_self]
    exact h
  by_cases hi : g.interferes u v = true
  · rw [addEdge_of_interferes hi]
    exact h
  have hvu : ¬ g.interferes v u = true := by rwa [interferes_comm]
  constructor
  · intro e he
    rcases mem_edges_addEdge.mp he with he | ⟨_, rfl⟩
    · exact h.canonical e he
    · exact Edge.low_lt_high_between huv
  · intro a b
    rw [neighbors_addEdge huv hi, interferes_addEdge, Edge.between_eq_iff]
    by_cases hau : a = u
    · subst hau
      rw [if_pos rfl, FiniteSet.mem_insert, h.mem_neighbors]
      constructor
      · intro hw
        rcases hw with rfl | hb
        · exact .inr ⟨huv, .inl ⟨rfl, rfl⟩⟩
        · exact .inl hb
      · intro hw
        rcases hw with hb | ⟨_, ⟨_, rfl⟩ | ⟨rfl, _⟩⟩
        · exact .inr hb
        · exact .inl rfl
        · exact absurd rfl huv
    rw [if_neg hau]
    by_cases hav : a = v
    · subst hav
      rw [if_pos rfl, FiniteSet.mem_insert, h.mem_neighbors]
      constructor
      · intro hw
        rcases hw with rfl | hb
        · exact .inr ⟨huv, .inr ⟨rfl, rfl⟩⟩
        · exact .inl hb
      · intro hw
        rcases hw with hb | ⟨_, ⟨rfl, _⟩ | ⟨_, rfl⟩⟩
        · exact .inr hb
        · exact absurd rfl hau
        · exact .inl rfl
    rw [if_neg hav, h.mem_neighbors]
    constructor
    · exact .inl
    · intro hw
      rcases hw with hb | ⟨_, ⟨rfl, _⟩ | ⟨rfl, _⟩⟩
      · exact hb
      · exact absurd rfl hau
      · exact absurd rfl hav
  · intro w
    rw [degree_addEdge huv hi, neighbors_addEdge huv hi, h.degree_eq]
    by_cases hwu : w = u
    · subst hwu
      have hnew : v ∉ g.neighbors w := fun hv => hi ((h.mem_neighbors w v).mp hv)
      rw [if_pos (.inl rfl), if_pos rfl, FiniteSet.size_insert, if_neg hnew]
    by_cases hwv : w = v
    · subst hwv
      have hnew : u ∉ g.neighbors w := fun hu => hvu ((h.mem_neighbors w u).mp hu)
      rw [if_pos (.inr rfl), if_neg hwu, if_pos rfl, FiniteSet.size_insert, if_neg hnew]
    rw [if_neg (not_or.mpr ⟨hwu, hwv⟩), if_neg hwu, if_neg hwv]

theorem edit {g : Graph} (h : g.Consistent) (e : Edit) : (g.edit e).Consistent := by
  cases e with
  | addNode v => exact h.addNode v
  | addEdge u v => exact h.addEdge u v
  | clear => exact .empty

theorem ofEdits (es : List Edit) : (Graph.ofEdits es).Consistent := by
  suffices ∀ g : Graph, g.Consistent → (es.foldl Graph.edit g).Consistent from
    this .empty .empty
  induction es with
  | nil => exact fun _ h => h
  | cons e es ih => exact fun g h => ih _ (h.edit e)

theorem addNodes {g : Graph} (h : g.Consistent) (vs : List Value) :
    (g.addNodes vs).Consistent := by
  induction vs generalizing g with
  | nil => exact h
  | cons v vs ih => exact ih (h.addNode v)

theorem addEdges {g : Graph} (h : g.Consistent) (ps : List (Value × Value)) :
    (g.addEdges ps).Consistent := by
  induction ps generalizing g with
  | nil => exact h
  | cons p ps ih => exact ih (h.addEdge p.1 p.2)

end Consistent

theorem arcFault?_eq_none_iff {g : Graph} {u v : Value} :
    g.arcFault? v u = none ↔ u ≠ v ∧ v ∈ g.neighbors u := by
  unfold arcFault?
  split <;> simp_all

theorem degreeFault?_eq_none_iff {g : Graph} {v : Value} :
    g.degreeFault? v = none ↔ g.degree v = (g.neighbors v).size := by
  unfold degreeFault?
  split <;> simp_all

/-- Nothing is wrong with a graph when the neighbors of each node are other values that know of it,
and the degree counts them. -/
theorem fault?_eq_none_iff {g : Graph} : g.fault? = none ↔
    ∀ v ∈ g.nodes, (∀ u ∈ g.neighbors v, u ≠ v ∧ v ∈ g.neighbors u) ∧
      g.degree v = (g.neighbors v).size := by
  simp only [fault?, nodeFault?, List.findSome?_eq_none_iff, Option.or_eq_none_iff,
    FiniteSet.mem_sorted, arcFault?_eq_none_iff, degreeFault?_eq_none_iff, FiniteSet.mem_def]

theorem Consistent.fault?_eq_none {g : Graph} (h : g.Consistent) : g.fault? = none := by
  apply fault?_eq_none_iff.mpr
  intro v _
  refine ⟨?_, h.degree_eq v⟩
  intro u hu
  exact ⟨(h.ne_of_interferes ((h.mem_neighbors v u).mp hu)).symm, h.neighbors_symm hu⟩

theorem mem_nodes_addNodes {g : Graph} {vs : List Value} {w : Value} :
    w ∈ (g.addNodes vs).nodes ↔ w ∈ vs ∨ w ∈ g.nodes := by
  induction vs generalizing g with
  | nil => simp [addNodes]
  | cons v vs ih =>
    rw [show g.addNodes (v :: vs) = (g.addNode v).addNodes vs from rfl, ih, mem_nodes_addNode,
      List.mem_cons, or_left_comm, or_assoc]

theorem edges_addNodes (g : Graph) (vs : List Value) : (g.addNodes vs).edges = g.edges := by
  induction vs generalizing g with
  | nil => rfl
  | cons v vs ih => exact (ih (g.addNode v)).trans (edges_addNode g v)

theorem nodes_addEdges (g : Graph) (ps : List (Value × Value)) :
    (g.addEdges ps).nodes = g.nodes := by
  induction ps generalizing g with
  | nil => rfl
  | cons p ps ih => exact (ih (g.addEdge p.1 p.2)).trans (nodes_addEdge g p.1 p.2)

theorem mem_edges_addEdges {g : Graph} {ps : List (Value × Value)} {e : Edge} :
    e ∈ (g.addEdges ps).edges ↔
      e ∈ g.edges ∨ ∃ p ∈ ps, p.1 ≠ p.2 ∧ e = .between p.1 p.2 := by
  induction ps generalizing g with
  | nil => simp [addEdges]
  | cons p ps ih =>
    rw [show g.addEdges (p :: ps) = (g.addEdge p.1 p.2).addEdges ps from rfl, ih,
      mem_edges_addEdge]
    simp only [List.mem_cons, exists_eq_or_imp, or_assoc]

theorem interferes_addEdges {g : Graph} {ps : List (Value × Value)} {u v : Value} :
    (g.addEdges ps).interferes u v = true ↔
      g.interferes u v = true ∨ (u ≠ v ∧ ((u, v) ∈ ps ∨ (v, u) ∈ ps)) := by
  simp only [interferes, decide_eq_true_eq, mem_edges_addEdges]
  apply or_congr_right
  constructor
  · rintro ⟨⟨a, b⟩, hp, hne, hb⟩
    rcases Edge.between_eq_iff.mp hb with ⟨rfl, rfl⟩ | ⟨rfl, rfl⟩
    · exact ⟨hne, .inl hp⟩
    · exact ⟨hne.symm, .inr hp⟩
  · rintro ⟨hne, h | h⟩
    · exact ⟨(u, v), h, hne, rfl⟩
    · exact ⟨(v, u), h, hne.symm, Edge.between_comm u v⟩

/-- Graphs that answer every question alike. Only the order of their tables may differ. -/
structure Alike (g h : Graph) : Prop where
  nodes : ∀ v, v ∈ g.nodes ↔ v ∈ h.nodes
  edges : ∀ e, e ∈ g.edges ↔ e ∈ h.edges
  neighbors : ∀ u v, v ∈ g.neighbors u ↔ v ∈ h.neighbors u
  degree : ∀ v, g.degree v = h.degree v

theorem Alike.refl (g : Graph) : g.Alike g :=
  ⟨fun _ => .rfl, fun _ => .rfl, fun _ _ => .rfl, fun _ => rfl⟩

theorem Alike.of_consistent {g h : Graph} (hg : g.Consistent) (hh : h.Consistent)
    (nodes : ∀ v, v ∈ g.nodes ↔ v ∈ h.nodes)
    (interferes : ∀ u v, g.interferes u v = true ↔ h.interferes u v = true) : g.Alike h := by
  have neighbors : ∀ u v, v ∈ g.neighbors u ↔ v ∈ h.neighbors u := by
    intro u v
    rw [hg.mem_neighbors, hh.mem_neighbors, interferes]
  have edges : ∀ e, e ∈ g.edges ↔ e ∈ h.edges := by
    intro e
    constructor
    · intro he
      have hcanon := hg.canonical e he
      rw [← interferes_low_high hcanon] at he ⊢
      exact (interferes _ _).mp he
    · intro he
      have hcanon := hh.canonical e he
      rw [← interferes_low_high hcanon] at he ⊢
      exact (interferes _ _).mpr he
  refine ⟨nodes, edges, neighbors, ?_⟩
  intro v
  rw [hg.degree_eq, hh.degree_eq]
  exact FiniteSet.size_eq_of_mem_iff (neighbors v)

theorem Alike.interferes {g h : Graph} (alike : g.Alike h) (u v : Value) :
    g.interferes u v = h.interferes u v := decide_eq_decide.mpr (alike.edges _)

theorem Alike.nodes_sorted {g h : Graph} (alike : g.Alike h) :
    g.nodes.sorted = h.nodes.sorted :=
  FiniteSet.sorted_eq_of_mem_iff alike.nodes

theorem Alike.edges_sorted {g h : Graph} (alike : g.Alike h) :
    g.edges.sorted = h.edges.sorted :=
  FiniteSet.sorted_eq_of_mem_iff alike.edges

/-- Which fault is found first may depend on the order of a neighbor set, but not whether there is
one. -/
theorem Alike.fault?_eq_none_iff {g h : Graph} (alike : g.Alike h) :
    g.fault? = none ↔ h.fault? = none := by
  have hsize : ∀ v, (g.neighbors v).size = (h.neighbors v).size :=
    fun v => FiniteSet.size_eq_of_mem_iff (alike.neighbors v)
  rw [Graph.fault?_eq_none_iff, Graph.fault?_eq_none_iff]
  simp only [alike.nodes, alike.neighbors, alike.degree, hsize]

end Graph

/-!
The order in which nodes are colored: more neighbors first, and of nodes with as many the lower.
It is a strict order on the nodes, and graphs that are alike have the same one.
-/

namespace Graph

def Precedes (g : Graph) (u v : Value) : Prop :=
  g.degree v < g.degree u ∨ (g.degree u = g.degree v ∧ u < v)

instance (g : Graph) (u v : Value) : Decidable (g.Precedes u v) :=
  inferInstanceAs (Decidable (_ ∨ (_ ∧ _)))

theorem Precedes.asymm {g : Graph} {u v : Value} (h : g.Precedes u v) : ¬ g.Precedes v u := by
  intro hvu
  rcases hvu with hlt | ⟨heq, hvu⟩
  · rcases h with h | ⟨h, _⟩ <;> omega
  · rcases h with h | ⟨_, huv⟩
    · omega
    · exact Std.not_gt_of_lt huv hvu

theorem not_precedes_self (g : Graph) (v : Value) : ¬ g.Precedes v v :=
  fun h => h.asymm h

theorem busier_iff {g : Graph} {u v : Value} : g.busier u v = true ↔
    g.degree v < g.degree u ∨ (g.degree u = g.degree v ∧ u ≤ v) := by
  simp [busier]

@[simp] theorem mem_byDegree {g : Graph} {v : Value} : v ∈ g.byDegree ↔ v ∈ g.nodes := by
  simp [byDegree]

theorem byDegree_perm (g : Graph) : g.byDegree.Perm g.nodes.elems :=
  (sortBy_perm _ _).trans (ascending_perm _)

theorem byDegree_pairwise (g : Graph) : g.byDegree.Pairwise g.Precedes := by
  apply sortBy_pairwise_lex g.degree (· > ·) id
  · exact fun _ _ => busier_iff
  · intro j k
    omega
  · intro i j k
    omega
  · exact g.nodes.sorted_nodup

theorem nodup_of_pairwise_precedes {g : Graph} {vs : List Value}
    (sorted : vs.Pairwise g.Precedes) : vs.Nodup := by
  refine List.Pairwise.imp ?_ sorted
  rintro v _ h rfl
  exact g.not_precedes_self v h

theorem byDegree_nodup (g : Graph) : g.byDegree.Nodup :=
  nodup_of_pairwise_precedes g.byDegree_pairwise

theorem Alike.byDegree_eq {g h : Graph} (alike : g.Alike h) : g.byDegree = h.byDegree := by
  have hbusier : g.busier = h.busier := by
    funext u v
    simp only [busier, alike.degree]
  rw [byDegree, byDegree, hbusier, alike.nodes_sorted]

end Graph

end RegisterColoring
