import Mathlib.Algebra.BigOperators.Group.Finset.Piecewise
import Mathlib.Data.Fintype.Fin
import Mathlib.Data.List.DropRight
import Mathlib.Data.List.Induction
import RegisterColoring.Proofs.Graph.Consistency

/-!
What is left of a list of additions: the values that were added are the nodes, the distinct values
that were linked interfere. The order of the additions, their repetitions and the orientation of a
link do not show.
-/

namespace RegisterColoring

namespace Graph

/-- Some edit links the two values, in one orientation or the other. -/
def Links (es : List Edit) (u v : Value) : Prop := .addEdge u v ∈ es ∨ .addEdge v u ∈ es

theorem ofEdits_concat (es : List Edit) (e : Edit) :
    ofEdits (es ++ [e]) = (ofEdits es).edit e := List.foldl_append

theorem mem_nodes_ofEdits {es : List Edit} (kept : .clear ∉ es) {v : Value} :
    v ∈ (ofEdits es).nodes ↔ .addNode v ∈ es := by
  induction es using List.reverseRecOn with
  | nil => exact iff_of_false (FiniteSet.not_mem_empty v) List.not_mem_nil
  | append_singleton es e ih =>
    obtain ⟨hes, he⟩ := not_or.mp (mt List.mem_append.mpr kept)
    rw [ofEdits_concat, List.mem_append, List.mem_singleton]
    cases e with
    | addNode w => rw [edit, mem_nodes_addNode, ih hes, Edit.addNode.injEq, or_comm]
    | addEdge a b =>
      rw [edit, nodes_addEdge, ih hes]
      exact (or_iff_left (by simp)).symm
    | clear => exact absurd List.mem_cons_self he

theorem links_concat_addEdge {es : List Edit} {a b u v : Value} :
    Links (es ++ [.addEdge a b]) u v ↔ Links es u v ∨ Edge.between u v = .between a b := by
  simp only [Links, List.mem_append, List.mem_singleton, Edit.addEdge.injEq, Edge.between_eq_iff]
  tauto

theorem interferes_ofEdits {es : List Edit} (kept : .clear ∉ es) {u v : Value} :
    (ofEdits es).interferes u v = true ↔ u ≠ v ∧ Links es u v := by
  induction es using List.reverseRecOn with
  | nil =>
    have hnone : (ofEdits []).interferes u v = false := decide_eq_false (FiniteSet.not_mem_empty _)
    simp [hnone, Links]
  | append_singleton es e ih =>
    obtain ⟨hes, he⟩ := not_or.mp (mt List.mem_append.mpr kept)
    rw [ofEdits_concat]
    cases e with
    | addNode w => simpa [edit, interferes_addNode, Links] using ih hes
    | addEdge a b =>
      rw [edit, interferes_addEdge, ih hes, links_concat_addEdge, and_or_left]
      apply or_congr_right
      apply and_congr_left
      intro hb
      rcases Edge.between_eq_iff.mp hb with ⟨rfl, rfl⟩ | ⟨rfl, rfl⟩
      · exact .rfl
      · exact ne_comm
    | clear => exact absurd List.mem_cons_self he

/-- Two lists of edits that mention the same nodes and link the same pairs of distinct values. -/
structure SameMentions (es fs : List Edit) : Prop where
  nodes : ∀ v, .addNode v ∈ es ↔ .addNode v ∈ fs
  links : ∀ u v, u ≠ v → (Links es u v ↔ Links fs u v)

theorem SameMentions.alike {es fs : List Edit} (same : SameMentions es fs) (kept : .clear ∉ es)
    (kept' : .clear ∉ fs) : (ofEdits es).Alike (ofEdits fs) := by
  apply Alike.of_consistent (.ofEdits es) (.ofEdits fs)
  · intro v
    rw [mem_nodes_ofEdits kept, mem_nodes_ofEdits kept', same.nodes]
  · intro u v
    rw [interferes_ofEdits kept, interferes_ofEdits kept']
    exact and_congr_right (same.links u v)

end Graph

/-!
Graphs after any history of edits, emptied in between or not. The tables stay in step, every edge
counts in two degrees and no degree counts anything else, and what the graph says was edited into it
after it was last emptied.
-/

namespace Graph

-- Local: where it is in scope, a bounded statement about values is decided by going through all.
local instance : Fintype Value :=
  .ofBijective (fun i : Fin UInt32.size => Value.mk (.ofFin i))
    ⟨fun _ _ h => congrArg (fun v : Value => v.id.toFin) h, fun v => ⟨v.id.toFin, rfl⟩⟩

/-- What the tables of a graph say of each other. -/
structure InStep (g : Graph) : Prop extends g.Consistent where
  reciprocal : ∀ u v, v ∈ g.neighbors u ↔ u ∈ g.neighbors v
  symmetric : ∀ u v, g.interferes u v = g.interferes v u
  irreflexive : ∀ v, v ∉ g.neighbors v
  degree_sum : ∑ v, g.degree v = 2 * g.edgeCount

/-- The edits that a graph still shows. -/
def sinceClear (es : List Edit) : List Edit := es.rtakeWhile fun e => decide (e ≠ .clear)

theorem clear_not_mem_sinceClear (es : List Edit) : .clear ∉ sinceClear es := by
  intro h
  have hkept := List.mem_rtakeWhile_imp h
  exact of_decide_eq_true hkept rfl

theorem ofEdits_sinceClear (es : List Edit) : ofEdits (sinceClear es) = ofEdits es := by
  induction es using List.reverseRecOn with
  | nil => rfl
  | append_singleton es e ih =>
    by_cases he : e = .clear
    · subst he
      rw [sinceClear, List.rtakeWhile_concat_neg _ _ _ (by simp), ofEdits_concat]
      rfl
    · rw [sinceClear, List.rtakeWhile_concat_pos _ _ _ (by simpa using he), ofEdits_concat,
        ofEdits_concat]
      exact congrArg (fun g : Graph => g.edit e) ih

theorem edgeCount_addEdge {g : Graph} {u v : Value} (distinct : u ≠ v)
    (h : ¬ g.interferes u v) : (g.addEdge u v).edgeCount = g.edgeCount + 1 := by
  have hedges : (g.addEdge u v).edges = g.edges.insert (.between u v) := by
    rw [addEdge, if_neg (not_or.mpr ⟨distinct, h⟩)]
    rfl
  have hnew : Edge.between u v ∉ g.edges := fun he => h (decide_eq_true he)
  rw [edgeCount, hedges, FiniteSet.size_insert, if_neg hnew, edgeCount]

theorem sum_degree_addEdge {g : Graph} {u v : Value} (distinct : u ≠ v)
    (h : ¬ g.interferes u v) : ∑ w, (g.addEdge u v).degree w = (∑ w, g.degree w) + 2 := by
  have hdegree : ∀ w, (g.addEdge u v).degree w =
      g.degree w + ((if w = u then 1 else 0) + if w = v then 1 else 0) := by
    intro w
    rw [degree_addEdge distinct h]
    by_cases hu : w = u
    · simp [hu, distinct]
    · simp only [hu, false_or, if_false, Nat.zero_add]
      split <;> rfl
  simp only [hdegree, Finset.sum_add_distrib, Finset.sum_ite_eq', Finset.mem_univ, if_true]

/-- Each edit keeps the balance: a new edge adds one to two degrees. -/
theorem sum_degree_edit {g : Graph} (balanced : ∑ v, g.degree v = 2 * g.edgeCount) (e : Edit) :
    ∑ v, (g.edit e).degree v = 2 * (g.edit e).edgeCount := by
  cases e with
  | addNode v =>
    simp only [edit, degree_addNode, edgeCount, edges_addNode]
    exact balanced
  | addEdge u v =>
    by_cases huv : u = v
    · subst huv
      rw [edit, addEdge_self]
      exact balanced
    by_cases hi : g.interferes u v = true
    · rw [edit, addEdge_of_interferes hi]
      exact balanced
    rw [edit, sum_degree_addEdge huv hi, edgeCount_addEdge huv hi]
    omega
  | clear => exact Finset.sum_eq_zero fun _ _ => rfl

theorem sum_degree_ofEdits (es : List Edit) :
    ∑ v, (ofEdits es).degree v = 2 * (ofEdits es).edgeCount := by
  induction es using List.reverseRecOn with
  | nil => exact Finset.sum_eq_zero fun _ _ => rfl
  | append_singleton es e ih =>
    rw [ofEdits_concat]
    exact sum_degree_edit ih e

theorem inStep_ofEdits (es : List Edit) : (ofEdits es).InStep where
  toConsistent := .ofEdits es
  reciprocal _ _ := ⟨(Consistent.ofEdits es).neighbors_symm, (Consistent.ofEdits es).neighbors_symm⟩
  symmetric := (ofEdits es).interferes_comm
  irreflexive v hv := (Consistent.ofEdits es).ne_of_interferes
    (((Consistent.ofEdits es).mem_neighbors v v).mp hv) rfl
  degree_sum := sum_degree_ofEdits es

/-- Edits keep the tables of a graph in step, and the graph says what was edited into it after it
was last emptied. Nothing is asked of the edits: an end of an edge may be added as a node before it,
after it or never, and a pair may be linked again, the other way round or to itself. -/
theorem every_history_stays_in_step (es : List Edit) :
    (ofEdits es).InStep ∧
      (∀ v, v ∈ (ofEdits es).nodes ↔ .addNode v ∈ sinceClear es) ∧
      ∀ u v, (ofEdits es).interferes u v = true ↔ u ≠ v ∧ Links (sinceClear es) u v := by
  have kept := clear_not_mem_sinceClear es
  refine ⟨inStep_ofEdits es, ?_, ?_⟩
  · intro v
    rw [← ofEdits_sinceClear, mem_nodes_ofEdits kept]
  · intro u v
    rw [← ofEdits_sinceClear, interferes_ofEdits kept]

end Graph

end RegisterColoring
