import RegisterColoring.Allocation

/-!
Interference graphs. Four tables say the same thing in different ways: the nodes, the edges as pairs
with the lower end first, the neighbor set of each value, and its degree. Building the graph with
`addNode` and `addEdge` keeps them in step; the operations on a single arc or degree do not.
-/

namespace RegisterColoring

structure Edge where
  low : Value
  high : Value
deriving DecidableEq

namespace Edge

def between (u v : Value) : Edge := if u < v then ⟨u, v⟩ else ⟨v, u⟩

theorem between_comm (u v : Value) : between u v = between v u := by
  rcases Std.lt_trichotomy u v with h | h | h
  · rw [between, between, if_pos h, if_neg (Std.not_gt_of_lt h)]
  · rw [h]
  · rw [between, between, if_neg (Std.not_gt_of_lt h), if_pos h]

instance : LE Edge := ⟨fun d e => d.low < e.low ∨ (d.low = e.low ∧ d.high ≤ e.high)⟩
instance : DecidableLE Edge := fun d e =>
  inferInstanceAs (Decidable (d.low < e.low ∨ (d.low = e.low ∧ d.high ≤ e.high)))

theorem le_def {d e : Edge} : d ≤ e ↔ d.low < e.low ∨ (d.low = e.low ∧ d.high ≤ e.high) := .rfl

instance : Std.IsLinearOrder Edge where
  le_refl d := by grind [le_def]
  le_trans c d e := by grind [le_def]
  le_antisymm d e := by cases d; cases e; grind [le_def]
  le_total d e := by grind [le_def]

end Edge

structure Graph where
  nodes : FiniteSet Value
  edges : FiniteSet Edge
  adjacency : FiniteMap Value (FiniteSet Value)
  degrees : FiniteMap Value Nat

namespace Graph

def empty : Graph := ⟨∅, ∅, ∅, ∅⟩

instance : Inhabited Graph := ⟨empty⟩

def neighbors (g : Graph) (v : Value) : FiniteSet Value := (g.adjacency.get? v).getD ∅

def degree (g : Graph) (v : Value) : Nat := (g.degrees.get? v).getD 0

def interferes (g : Graph) (u v : Value) : Bool := decide (Edge.between u v ∈ g.edges)

def nodeCount (g : Graph) : Nat := g.nodes.size

def edgeCount (g : Graph) : Nat := g.edges.size

def addNode (g : Graph) (v : Value) : Graph :=
  if v ∈ g.nodes then g
  else
    { g with
      nodes := g.nodes.insert v
      adjacency := g.adjacency.insertIfNew v ∅
      degrees := g.degrees.insertIfNew v 0 }

/-- Names `v` in the neighbor set of `u`, and changes nothing else. -/
def insertArc (g : Graph) (u v : Value) : Graph :=
  { g with adjacency := g.adjacency.insert u ((g.neighbors u).insert v) }

/-- Takes `v` out of the neighbor set of `u`, and changes nothing else. -/
def removeArc (g : Graph) (u v : Value) : Graph :=
  { g with adjacency := g.adjacency.insert u ((g.neighbors u).erase v) }

def setDegree (g : Graph) (v : Value) (d : Nat) : Graph :=
  { g with degrees := g.degrees.insert v d }

def raiseDegree (g : Graph) (v : Value) : Graph := g.setDegree v (g.degree v + 1)

def insertEdge (g : Graph) (e : Edge) : Graph := { g with edges := g.edges.insert e }

/-- A value does not interfere with itself, and an edge counts once. -/
def addEdge (g : Graph) (u v : Value) : Graph :=
  if u = v ∨ g.interferes u v then g
  else
    ((((g.insertEdge (.between u v)).insertArc u v).insertArc v u).raiseDegree u).raiseDegree v

def addNodes (g : Graph) (vs : List Value) : Graph := vs.foldl addNode g

def addEdges (g : Graph) (ps : List (Value × Value)) : Graph :=
  ps.foldl (fun g p => g.addEdge p.1 p.2) g

/-- Values with more neighbors come first, and of those with as many the lower. -/
def busier (g : Graph) (u v : Value) : Bool :=
  decide (g.degree v < g.degree u) || decide (g.degree u = g.degree v) && decide (u ≤ v)

def byDegree (g : Graph) : List Value := sortBy g.busier g.nodes.sorted

theorem interferes_comm (g : Graph) (u v : Value) : g.interferes u v = g.interferes v u := by
  rw [interferes, interferes, Edge.between_comm]

theorem mem_nodes_addNode {g : Graph} {v w : Value} :
    w ∈ (g.addNode v).nodes ↔ w = v ∨ w ∈ g.nodes := by
  unfold addNode
  split
  · exact ⟨Or.inr, fun h => h.elim (fun e => e ▸ ‹v ∈ g.nodes›) id⟩
  · exact FiniteSet.mem_insert

theorem edges_addNode (g : Graph) (v : Value) : (g.addNode v).edges = g.edges := by
  unfold addNode
  split <;> rfl

theorem addEdge_self (g : Graph) (v : Value) : g.addEdge v v = g := if_pos (Or.inl rfl)

theorem addEdge_of_interferes {g : Graph} {u v : Value} (h : g.interferes u v) :
    g.addEdge u v = g := if_pos (Or.inr h)

theorem nodes_addEdge (g : Graph) (u v : Value) : (g.addEdge u v).nodes = g.nodes := by
  unfold addEdge
  split <;> rfl

theorem mem_edges_addEdge {g : Graph} {u v : Value} {e : Edge} :
    e ∈ (g.addEdge u v).edges ↔ e ∈ g.edges ∨ (u ≠ v ∧ e = .between u v) := by
  unfold addEdge
  split
  · rename_i h
    refine ⟨Or.inl, fun he => he.elim id fun new => ?_⟩
    rcases h with h | h
    · exact absurd h new.1
    · exact new.2 ▸ of_decide_eq_true h
  · rename_i h
    have distinct : u ≠ v := fun e => h (Or.inl e)
    refine FiniteSet.mem_insert.trans ⟨fun he => ?_, fun he => ?_⟩
    · exact he.elim (fun new => .inr ⟨distinct, new⟩) .inl
    · exact he.elim .inr fun new => .inl new.2

theorem neighbors_insertArc (g : Graph) (u v w : Value) :
    (g.insertArc u v).neighbors w = if w = u then (g.neighbors u).insert v else g.neighbors w := by
  simp only [insertArc, neighbors, FiniteMap.get?_insert]
  split <;> rfl

theorem neighbors_removeArc (g : Graph) (u v w : Value) :
    (g.removeArc u v).neighbors w = if w = u then (g.neighbors u).erase v else g.neighbors w := by
  simp only [removeArc, neighbors, FiniteMap.get?_insert]
  split <;> rfl

theorem degree_setDegree (g : Graph) (v w : Value) (d : Nat) :
    (g.setDegree v d).degree w = if w = v then d else g.degree w := by
  simp only [setDegree, degree, FiniteMap.get?_insert]
  split <;> rfl

theorem neighbors_addNode (g : Graph) (v w : Value) :
    (g.addNode v).neighbors w = g.neighbors w := by
  simp only [addNode, neighbors]
  split
  · rfl
  · simp only [FiniteMap.get?_insertIfNew]
    split <;> simp_all

theorem degree_addNode (g : Graph) (v w : Value) : (g.addNode v).degree w = g.degree w := by
  simp only [addNode, degree]
  split
  · rfl
  · simp only [FiniteMap.get?_insertIfNew]
    split <;> simp_all

/-- A new edge makes each end a neighbor of the other. -/
theorem neighbors_addEdge {g : Graph} {u v : Value} (distinct : u ≠ v) (h : ¬ g.interferes u v)
    (w : Value) : (g.addEdge u v).neighbors w =
      if w = u then (g.neighbors u).insert v
      else if w = v then (g.neighbors v).insert u
      else g.neighbors w := by
  have step : (g.addEdge u v).neighbors w =
      ((g.insertArc u v).insertArc v u).neighbors w := by
    rw [addEdge, if_neg (not_or.2 ⟨distinct, h⟩)]
    rfl
  rw [step, neighbors_insertArc, neighbors_insertArc, neighbors_insertArc]
  by_cases hu : w = u
  · rw [if_neg (hu ▸ distinct), if_pos hu, if_pos hu]
  · rw [if_neg hu, if_neg hu, if_neg distinct.symm]

/-- A new edge raises the degree of its ends by one. -/
theorem degree_addEdge {g : Graph} {u v : Value} (distinct : u ≠ v) (h : ¬ g.interferes u v)
    (w : Value) :
    (g.addEdge u v).degree w = if w = u ∨ w = v then g.degree w + 1 else g.degree w := by
  have step : (g.addEdge u v).degree w = ((g.raiseDegree u).raiseDegree v).degree w := by
    rw [addEdge, if_neg (not_or.2 ⟨distinct, h⟩)]
    rfl
  rw [step, raiseDegree, raiseDegree, degree_setDegree, degree_setDegree, degree_setDegree]
  by_cases hu : w = u
  · rw [if_neg (hu ▸ distinct), if_pos hu, if_pos (.inl hu), hu]
  · by_cases hv : w = v
    · rw [if_pos hv, if_neg distinct.symm, if_pos (.inr hv), hv]
    · rw [if_neg hv, if_neg hu, if_neg (not_or.2 ⟨hu, hv⟩)]

end Graph

/-!
The pairs of values that interfere, found by asking every pair or by a sweep over the extents. Each
pair is asked about once, the one that comes first in the enumeration first.
-/

/-- A value with the extent of its live range. -/
structure Extent where
  value : Value
  span : Segment
deriving DecidableEq

namespace Extent

/-- Earlier starts come first, and of equal ones the lower value. -/
def before (d e : Extent) : Bool :=
  decide (d.span.start < e.span.start) ||
    decide (d.span.start = e.span.start) && decide (d.value ≤ e.value)

/-- Pairs each extent with those met before that have not ended when it starts. -/
def meetings : List Extent → List Extent → List (Value × Value)
  | _, [] => []
  | active, e :: es =>
    let active := active.filter fun a => decide (e.span.start < a.span.stop)
    active.map (fun a => (a.value, e.value)) ++ meetings (active ++ [e]) es

end Extent

def pairsOf {α : Type} : List α → List (α × α)
  | [] => []
  | x :: xs => xs.map (fun y => (x, y)) ++ pairsOf xs

namespace Liveness

/-- The values a graph is built from: those with a live range that are not marked. -/
def nodes (live : Liveness) (marked : FiniteSet Value) : List Value :=
  (FiniteSet.ofList (live.values.filter fun v => live.hasRange v && decide (v ∉ marked))).sorted

def pairwise (live : Liveness) (vs : List Value) : List (Value × Value) :=
  (pairsOf vs).filter fun p => live.overlaps p.1 p.2

def sweep (live : Liveness) (es : List Extent) : List (Value × Value) :=
  (Extent.meetings [] (sortBy Extent.before es)).filter fun p => live.overlaps p.1 p.2

/-- The extents of all values, if every one has one. -/
def extents? (live : Liveness) (vs : List Value) : Option (List Extent) :=
  vs.mapM fun v => (live.extent v).map (Extent.mk v)

end Liveness

/-!
What is wrong with a graph: a node that is its own neighbor, a neighbor that does not know of it,
a degree that is not the number of neighbors. The lowest faulty node is reported.
-/

namespace Graph

def arcFault? (g : Graph) (u v : Value) : Option AllocError :=
  if v = u then some (.selfLoop u)
  else if u ∈ g.neighbors v then none
  else some (.missingArc u v)

def degreeFault? (g : Graph) (v : Value) : Option AllocError :=
  if g.degree v = (g.neighbors v).size then none
  else some (.wrongDegree v (g.degree v) (g.neighbors v).size)

def nodeFault? (g : Graph) (v : Value) : Option AllocError :=
  ((g.neighbors v).elems.findSome? (g.arcFault? v)).or (g.degreeFault? v)

def fault? (g : Graph) : Option AllocError := g.nodes.sorted.findSome? g.nodeFault?

end Graph

/-!
A graph as text, a line for each node.
-/

def dumpRule : String := "-----------------------------------------------------------------"

/-- A heading and lines between two rules. -/
def framed (heading : String) (lines : List String) : String :=
  String.intercalate "\n" (heading :: dumpRule :: lines ++ [dumpRule])

namespace Graph

/-- The neighbors stand in ascending order, each followed by a comma. -/
def nodeText (g : Graph) (v : Value) : String :=
  "Interferences of " ++ v.text ++ " => " ++ toString (g.degree v) ++ ": \x7b" ++
    String.join ((g.neighbors v).sorted.map fun n => n.text ++ ",") ++ "\x7d"

def dump (g : Graph) : String := framed " Interference Graph:" (g.nodes.sorted.map g.nodeText)

end Graph

end RegisterColoring
