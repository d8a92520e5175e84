import Mathlib.Data.Set.Basic
import RegisterColoring.Proofs.Collection
import RegisterColoring.Proofs.Graph.Consistency

/-!
What the check of a graph finds. It finds something exactly when a node is faulty, it reports the
lowest faulty node, and what it reports is the case. A graph whose tables are in step does not stand
any change to one of them: an arc taken away, an arc put in, a degree overwritten. Which node shows
the change is known beforehand.
-/

namespace RegisterColoring

namespace FiniteSet

theorem size_erase {α : Type} [DecidableEq α] {s : FiniteSet α} {x : α} (h : x ∈ s) :
    (s.erase x).size = s.size - 1 := List.length_erase_of_mem h

end FiniteSet

namespace Graph

/-- The neighbors of `v` are other values that know of it, and its degree counts them. -/
structure SoundAt (g : Graph) (v : Value) : Prop where
  answered : ∀ n ∈ g.neighbors v, n ≠ v ∧ v ∈ g.neighbors n
  counted : g.degree v = (g.neighbors v).size

def faulty (g : Graph) : Set Value := {v | v ∈ g.nodes ∧ ¬ g.SoundAt v}

/-- What an error says of the tables at `v`. -/
inductive FaultAt (g : Graph) (v : Value) : AllocError → Prop where
  | selfLoop (own : v ∈ g.neighbors v) : FaultAt g v (.selfLoop v)
  | missingArc (n : Value) (arc : n ∈ g.neighbors v) (unanswered : v ∉ g.neighbors n) :
      FaultAt g v (.missingArc v n)
  | wrongDegree (miscounted : g.degree v ≠ (g.neighbors v).size) :
      FaultAt g v (.wrongDegree v (g.degree v) (g.neighbors v).size)

variable {g : Graph} {u v : Value} {e : AllocError}

theorem nodeFault?_eq_none_iff : g.nodeFault? v = none ↔ g.SoundAt v := by
  simp only [nodeFault?, Option.or_eq_none_iff, List.findSome?_eq_none_iff,
    arcFault?_eq_none_iff, degreeFault?_eq_none_iff]
  exact ⟨fun h => ⟨h.1, h.2⟩, fun h => ⟨h.answered, h.counted⟩⟩

theorem faultAt_of_arcFault? {n : Value} (hn : n ∈ g.neighbors v)
    (h : g.arcFault? v n = some e) : g.FaultAt v e := by
  unfold arcFault? at h
  split at h
  · rename_i heq
    obtain rfl := Option.some.inj h
    exact .selfLoop (heq ▸ hn)
  · split at h
    · cases h
    · rename_i hunanswered
      obtain rfl := Option.some.inj h
      exact .missingArc n hn hunanswered

theorem faultAt_of_nodeFault? (h : g.nodeFault? v = some e) : g.FaultAt v e := by
  rcases Option.or_eq_some_iff.mp h with harc | ⟨_, hdegree⟩
  · obtain ⟨n, hn, hfault⟩ := List.exists_of_findSome?_eq_some harc
    exact faultAt_of_arcFault? hn hfault
  · unfold degreeFault? at hdegree
    split at hdegree
    · cases hdegree
    · rename_i hmiscounted
      obtain rfl := Option.some.inj hdegree
      exact .wrongDegree hmiscounted

theorem fault?_eq_none_iff_faulty : g.fault? = none ↔ g.faulty = ∅ := by
  rw [fault?, List.findSome?_eq_none_iff, Set.eq_empty_iff_forall_notMem]
  simp only [FiniteSet.mem_sorted, nodeFault?_eq_none_iff]
  exact forall_congr' fun v => ⟨fun h hv => hv.2 (h hv.1), fun h hv => not_not.mp (not_and.mp h hv)⟩

theorem fault?_eq_some_iff : g.fault? = some e ↔
    ∃ v, IsLeast g.faulty v ∧ g.nodeFault? v = some e := by
  have sound : ∀ v, (g.nodeFault? v).isSome = true ↔ ¬ g.SoundAt v := by
    intro v
    rw [Option.isSome_iff_ne_none, ne_eq, nodeFault?_eq_none_iff]
  have strict : g.nodes.sorted.Pairwise (id · < id ·) := g.nodes.sorted_strict
  rw [fault?, findSome?_eq_some_iff_of_strict strict]
  constructor
  · rintro ⟨v, hv, hfault, least⟩
    refine ⟨v, ⟨⟨FiniteSet.mem_sorted.mp hv, ?_⟩, ?_⟩, hfault⟩
    · exact (sound v).mp (Option.isSome_of_eq_some hfault)
    · intro u hu
      exact least u (FiniteSet.mem_sorted.mpr hu.1) ((sound u).mpr hu.2)
  · rintro ⟨v, ⟨hv, least⟩, hfault⟩
    refine ⟨v, FiniteSet.mem_sorted.mpr hv.1, hfault, ?_⟩
    intro u hu hsome
    exact least ⟨FiniteSet.mem_sorted.mp hu, (sound u).mp hsome⟩

/-- The fault of a node is reported if the lower nodes are sound. -/
theorem fault?_eq_some_of_lowest (node : v ∈ g.nodes) (fault : g.nodeFault? v = some e)
    (below : ∀ u, u < v → g.SoundAt u) : g.fault? = some e := by
  have hunsound : ¬ g.SoundAt v := by
    rw [← nodeFault?_eq_none_iff, fault]
    exact Option.some_ne_none e
  refine fault?_eq_some_iff.mpr ⟨v, ⟨⟨node, hunsound⟩, ?_⟩, fault⟩
  intro u hu
  by_contra hle
  exact hu.2 (below u (Std.not_le.mp hle))

theorem nodeFault?_of_arc {n : Value} (arc : n ∈ g.neighbors v) (fault : g.arcFault? v n = some e)
    (rest : ∀ m ∈ g.neighbors v, m ≠ n → m ≠ v ∧ v ∈ g.neighbors m) :
    g.nodeFault? v = some e := by
  have harcs : (g.neighbors v).elems.findSome? (g.arcFault? v) = some e :=
    findSome?_eq_some_of_only arc fault
      fun m hm hne => arcFault?_eq_none_iff.mpr (rest m hm hne)
  rw [nodeFault?, harcs, Option.some_or]

theorem nodeFault?_of_degree (answered : ∀ n ∈ g.neighbors v, n ≠ v ∧ v ∈ g.neighbors n)
    (miscounted : g.degree v ≠ (g.neighbors v).size) :
    g.nodeFault? v = some (.wrongDegree v (g.degree v) (g.neighbors v).size) := by
  have harcs : (g.neighbors v).elems.findSome? (g.arcFault? v) = none :=
    List.findSome?_eq_none_iff.mpr fun n hn => arcFault?_eq_none_iff.mpr (answered n hn)
  rw [nodeFault?, harcs, Option.none_or, degreeFault?, if_neg miscounted]

/-- A graph in step whose tables speak of its nodes alone. -/
structure Intact (g : Graph) : Prop extends g.Consistent where
  ends : ∀ u v, v ∈ g.neighbors u → v ∈ g.nodes
  stored : ∀ v ∈ g.degrees.keys, v ∈ g.nodes

/-- One entry of one table is changed. The last index is the error that tells of it: a missing arc
shows at either end, so at the lower one. -/
inductive Tampered (g : Graph) : Graph → AllocError → Prop where
  | arcRemoved (u v : Value) (present : v ∈ g.neighbors u) :
      Tampered g (g.removeArc u v)
        (if u < v then .wrongDegree u (g.degree u) (g.degree u - 1) else .missingArc v u)
  | arcInserted (u v : Value) (node : u ∈ g.nodes) (absent : v ∉ g.neighbors u) :
      Tampered g (g.insertArc u v) (if v = u then .selfLoop u else .missingArc u v)
  | degreeChanged (v : Value) (d : Nat) (stored : v ∈ g.degrees.keys) (other : d ≠ g.degree v) :
      Tampered g (g.setDegree v d) (.wrongDegree v d (g.degree v))

namespace Consistent

variable (h : g.Consistent)

include h

theorem answered {n : Value} (hn : n ∈ g.neighbors v) : n ≠ v ∧ v ∈ g.neighbors n :=
  ⟨(h.ne_of_interferes ((h.mem_neighbors v n).mp hn)).symm, h.neighbors_symm hn⟩

/-- Values that are neither end of the arc see the same neighbors, which still know of them. -/
theorem soundAt_removeArc {w : Value} (hu : w ≠ u) (hv : w ≠ v) :
    (g.removeArc u v).SoundAt w := by
  constructor
  · intro n hn
    rw [neighbors_removeArc, if_neg hu] at hn
    obtain ⟨hne, hback⟩ := h.answered hn
    refine ⟨hne, ?_⟩
    rw [neighbors_removeArc]
    split
    · rename_i heq
      exact FiniteSet.mem_erase.mpr ⟨hv, heq ▸ hback⟩
    · exact hback
  · rw [neighbors_removeArc, if_neg hu]
    exact h.degree_eq w

theorem soundAt_insertArc {w : Value} (hu : w ≠ u) : (g.insertArc u v).SoundAt w := by
  constructor
  · intro n hn
    rw [neighbors_insertArc, if_neg hu] at hn
    obtain ⟨hne, hback⟩ := h.answered hn
    refine ⟨hne, ?_⟩
    rw [neighbors_insertArc]
    split
    · rename_i heq
      exact FiniteSet.mem_insert.mpr (.inr (heq ▸ hback))
    · exact hback
  · rw [neighbors_insertArc, if_neg hu]
    exact h.degree_eq w

theorem soundAt_setDegree {d : Nat} {w : Value} (hv : w ≠ v) : (g.setDegree v d).SoundAt w := by
  refine ⟨fun n hn => h.answered hn, ?_⟩
  rw [degree_setDegree, if_neg hv]
  exact h.degree_eq w

/-- The end that lost the arc has a degree too high, if the other end is not looked at first. -/
theorem nodeFault?_removeArc_source (present : v ∈ g.neighbors u) :
    (g.removeArc u v).nodeFault? u = some (.wrongDegree u (g.degree u) (g.degree u - 1)) := by
  have hsize : ((g.removeArc u v).neighbors u).size = g.degree u - 1 := by
    rw [neighbors_removeArc, if_pos rfl, FiniteSet.size_erase present, h.degree_eq]
  have hpositive : 0 < g.degree u := by
    rw [h.degree_eq]
    exact List.length_pos_of_mem present
  rw [← hsize]
  apply nodeFault?_of_degree
  · intro n hn
    rw [neighbors_removeArc, if_pos rfl] at hn
    obtain ⟨hne, hback⟩ := h.answered (FiniteSet.mem_erase.mp hn).2
    refine ⟨hne, ?_⟩
    rw [neighbors_removeArc, if_neg hne]
    exact hback
  · rw [hsize]
    exact Nat.ne_of_gt (Nat.sub_one_lt_of_lt hpositive)

theorem nodeFault?_removeArc_target (present : v ∈ g.neighbors u) :
    (g.removeArc u v).nodeFault? v = some (.missingArc v u) := by
  obtain ⟨hvu, hback⟩ := h.answered present
  have hneighbors : (g.removeArc u v).neighbors v = g.neighbors v := by
    rw [neighbors_removeArc, if_neg hvu]
  have hlost : v ∉ (g.removeArc u v).neighbors u := by
    rw [neighbors_removeArc, if_pos rfl]
    exact fun hv => (FiniteSet.mem_erase.mp hv).1 rfl
  apply nodeFault?_of_arc (n := u)
  · rw [hneighbors]
    exact hback
  · rw [arcFault?, if_neg hvu.symm, if_neg hlost]
  · intro m hm hmu
    rw [hneighbors] at hm
    rw [neighbors_removeArc, if_neg hmu]
    exact h.answered hm

theorem nodeFault?_insertArc (absent : v ∉ g.neighbors u) :
    (g.insertArc u v).nodeFault? u =
      some (if v = u then .selfLoop u else .missingArc u v) := by
  have hneighbors : (g.insertArc u v).neighbors u = (g.neighbors u).insert v := by
    rw [neighbors_insertArc, if_pos rfl]
  apply nodeFault?_of_arc (n := v)
  · rw [hneighbors]
    exact FiniteSet.mem_insert.mpr (.inl rfl)
  · by_cases heq : v = u
    · rw [arcFault?, if_pos heq, if_pos heq]
    · have hunanswered : u ∉ (g.insertArc u v).neighbors v := by
        rw [neighbors_insertArc, if_neg heq]
        exact fun hu => absent (h.neighbors_symm hu)
      rw [arcFault?, if_neg heq, if_neg hunanswered, if_neg heq]
  · intro m hm hmv
    rw [hneighbors] at hm
    obtain ⟨hne, hback⟩ := h.answered ((FiniteSet.mem_insert.mp hm).resolve_left hmv)
    refine ⟨hne, ?_⟩
    rw [neighbors_insertArc, if_neg hne]
    exact hback

theorem nodeFault?_setDegree {d : Nat} (other : d ≠ g.degree v) :
    (g.setDegree v d).nodeFault? v = some (.wrongDegree v d (g.degree v)) := by
  have hdegree : (g.setDegree v d).degree v = d := by rw [degree_setDegree, if_pos rfl]
  have hsize : ((g.setDegree v d).neighbors v).size = g.degree v := (h.degree_eq v).symm
  have hfault := nodeFault?_of_degree (g := g.setDegree v d) (v := v)
    (fun n hn => h.answered hn) (by rw [hdegree, hsize]; exact other)
  rw [hfault, hdegree, hsize]

end Consistent

namespace Intact

theorem empty : Graph.empty.Intact where
  toConsistent := .empty
  ends _ _ hv := absurd hv (FiniteSet.not_mem_empty _)
  stored _ hv := absurd hv List.not_mem_nil

theorem addNode (h : g.Intact) (v : Value) : (g.addNode v).Intact where
  toConsistent := h.toConsistent.addNode v
  ends u w hw := by
    rw [neighbors_addNode] at hw
    exact mem_nodes_addNode.mpr (.inr (h.ends u w hw))
  stored w hw := by
    rw [mem_nodes_addNode]
    unfold Graph.addNode at hw
    split at hw
    · exact .inr (h.stored w hw)
    · rw [FiniteMap.mem_keys, FiniteMap.get?_insertIfNew] at hw
      by_cases heq : w = v
      · exact .inl heq
      · rw [if_neg heq, ← FiniteMap.mem_keys] at hw
        exact .inr (h.stored w hw)

theorem addEdge (h : g.Intact) (hu : u ∈ g.nodes) (hv : v ∈ g.nodes) : (g.addEdge u v).Intact where
  toConsistent := h.toConsistent.addEdge u v
  ends a b hb := by
    rw [(h.toConsistent.addEdge u v).mem_neighbors, interferes_addEdge, Edge.between_eq_iff] at hb
    rw [nodes_addEdge]
    rcases hb with hb | ⟨_, ⟨_, rfl⟩ | ⟨_, rfl⟩⟩
    · exact h.ends a b ((h.mem_neighbors a b).mpr hb)
    · exact hv
    · exact hu
  stored w hw := by
    rw [nodes_addEdge]
    unfold Graph.addEdge at hw
    split at hw
    · exact h.stored w hw
    · by_cases hwu : w = u
      · exact hwu ▸ hu
      by_cases hwv : w = v
      · exact hwv ▸ hv
      refine h.stored w ?_
      rw [FiniteMap.mem_keys] at hw ⊢
      simpa [raiseDegree, setDegree, insertArc, insertEdge, FiniteMap.get?_insert, hwu, hwv] using hw

theorem addNodes (h : g.Intact) (vs : List Value) : (g.addNodes vs).Intact := by
  induction vs generalizing g with
  | nil => exact h
  | cons v vs ih => exact ih (h.addNode v)

theorem addEdges (h : g.Intact) {ps : List (Value × Value)}
    (nodes : ∀ p ∈ ps, p.1 ∈ g.nodes ∧ p.2 ∈ g.nodes) : (g.addEdges ps).Intact := by
  induction ps generalizing g with
  | nil => exact h
  | cons p ps ih =>
    obtain ⟨hfirst, hsecond⟩ := nodes p List.mem_cons_self
    apply ih (h.addEdge hfirst hsecond)
    intro q hq
    rw [nodes_addEdge]
    exact nodes q (List.mem_cons_of_mem _ hq)

/-- No change to a single entry goes unnoticed. -/
theorem fault?_of_tampered (h : g.Intact) {g' : Graph} (tampered : g.Tampered g' e) :
    g'.fault? = some e := by
  have consistent := h.toConsistent
  cases tampered with
  | arcRemoved u v present =>
    obtain ⟨hvu, hback⟩ := consistent.answered present
    by_cases hlt : u < v
    · rw [if_pos hlt]
      refine fault?_eq_some_of_lowest (h.ends v u hback)
        (consistent.nodeFault?_removeArc_source present) ?_
      intro w hw
      exact consistent.soundAt_removeArc (Std.ne_of_lt hw)
        (Std.ne_of_lt (Std.lt_trans hw hlt))
    · rw [if_neg hlt]
      have hgt : v < u := Std.lt_of_le_of_ne (Std.not_lt.mp hlt) hvu
      refine fault?_eq_some_of_lowest (h.ends u v present)
        (consistent.nodeFault?_removeArc_target present) ?_
      intro w hw
      exact consistent.soundAt_removeArc (Std.ne_of_lt (Std.lt_trans hw hgt))
        (Std.ne_of_lt hw)
  | arcInserted u v node absent =>
    refine fault?_eq_some_of_lowest node (consistent.nodeFault?_insertArc absent) ?_
    exact fun w hw => consistent.soundAt_insertArc (Std.ne_of_lt hw)
  | degreeChanged v d stored other =>
    refine fault?_eq_some_of_lowest (h.stored v stored) (consistent.nodeFault?_setDegree other) ?_
    exact fun w hw => consistent.soundAt_setDegree (Std.ne_of_lt hw)

end Intact

end Graph

end RegisterColoring
