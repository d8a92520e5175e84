import RegisterColoring.Proofs.LiveRange.Overlap
import RegisterColoring.Proofs.RegisterClass
import RegisterColoring.Proofs.Round.Outcome

/-!
Values in one register are never live together. The segments a value was entered with are followed
through the merging of its range, the overlap test, the edges of either strategy and the coloring
pass up to the decisions of the allocation.
-/

namespace RegisterColoring

namespace Round

variable {r : Round} {p : Procedure} {drawn : UInt64}

theorem graph_run : (r.run p drawn).2.graph = p.live.graph r.config.build r.marked :=
  (r.run_sameProblem p drawn).graph.trans load_graph

/-- Distinct values in one register do not overlap, for any liveness that answers faithfully. -/
theorem not_overlaps_of_assigned {a : Allocation} (ok : (r.run p drawn).1 = .ok a)
    (faithful : p.live.Faithful (p.live.nodes r.marked)) {u v : Value} {reg : Register}
    (distinct : u ≠ v) (hu : a.assigned? u = some reg) (hv : a.assigned? v = some reg) :
    p.live.overlaps u v = false := by
  have reached := ok_reached ok
  rw [assigned?_run ok] at hu hv
  cases ho : p.live.overlaps u v with
  | false => rfl
  | true =>
    obtain ⟨_, hcu, _⟩ := resolved?_eq_some_iff.mp hu
    obtain ⟨_, hcv, _⟩ := resolved?_eq_some_iff.mp hv
    have hedge : (r.run p drawn).2.graph.interferes u v = true := by
      rw [graph_run, Liveness.interferes_graph_iff faithful]
      exact ⟨mem_nodes_of_color? reached hcu, mem_nodes_of_color? reached hcv, distinct, ho⟩
    exact absurd hv ((registersApart_run reached).apart u v hedge reg hu)

/-- Values in one register have no position in common, by the segments they were entered with,
however these were cut and merged. -/
theorem assigned_ranges_disjoint (r : Round) (entries : List LiveRangeTable.Entry)
    (candidates : Value → List Register) (usage : Usage) (drawn : UInt64) (a : Allocation)
    (ok : (r.run ⟨(LiveRangeTable.ofEntries entries).liveness, candidates, usage⟩ drawn).1 = .ok a)
    (u v : Value) (reg : Register) (distinct : u ≠ v) (hu : a.assigned? u = some reg)
    (hv : a.assigned? v = some reg) :
    ¬ ∃ q, (∃ s ∈ LiveRangeTable.segmentsGiven entries u, s.Covers q) ∧
      (∃ s ∈ LiveRangeTable.segmentsGiven entries v, s.Covers q) := by
  rintro ⟨q, hqu, hqv⟩
  have ho : (LiveRangeTable.ofEntries entries).overlaps u v = true :=
    LiveRangeTable.overlaps_iff.mpr ⟨q, LiveRangeTable.covers_ofEntries.mpr hqu,
      LiveRangeTable.covers_ofEntries.mpr hqv⟩
  have hnot := not_overlaps_of_assigned ok (LiveRangeTable.liveness_faithful _ _) distinct hu hv
  exact Bool.false_ne_true (hnot.symm.trans ho)

/-- The last value is entered twice, and starts where the first one stops. -/
def relayEntries : List LiveRangeTable.Entry :=
  [⟨⟨0⟩, [⟨4, 6⟩, ⟨0, 4⟩], true⟩, ⟨⟨1⟩, [⟨2, 3⟩], false⟩, ⟨⟨2⟩, [⟨1, 2⟩], true⟩,
    ⟨⟨2⟩, [⟨6, 9⟩, ⟨9, 9⟩], true⟩]

def relay : Procedure where
  live := (LiveRangeTable.ofEntries relayEntries).liveness
  candidates := fun _ => [⟨1⟩, ⟨0⟩]
  usage := ⟨fun _ => [], fun _ => 0, fun _ _ => .none⟩

theorem relay_ranges_disjoint :
    ∃ a, ((new (Config.default.withSeed 5)).run relay 0).1 = .ok a ∧
      a.assigned? ⟨0⟩ = some ⟨1⟩ ∧ a.assigned? ⟨2⟩ = some ⟨1⟩ ∧
      ¬ ∃ q, (∃ s ∈ LiveRangeTable.segmentsGiven relayEntries ⟨0⟩, s.Covers q) ∧
        (∃ s ∈ LiveRangeTable.segmentsGiven relayEntries ⟨2⟩, s.Covers q) := by
  have hrun : ((new (Config.default.withSeed 5)).run relay 0).1.toOption.map
      (fun a => (a.assigned? ⟨0⟩, a.assigned? ⟨2⟩)) = some (some ⟨1⟩, some ⟨1⟩) := by
    decide +kernel
  cases hok : ((new (Config.default.withSeed 5)).run relay 0).1 with
  | error e =>
    rw [hok] at hrun
    cases hrun
  | ok a =>
    rw [hok] at hrun
    obtain ⟨h0, h2⟩ := Prod.mk.inj (Option.some.inj hrun)
    exact ⟨a, rfl, h0, h2, assigned_ranges_disjoint _ relayEntries relay.candidates relay.usage
      0 a hok ⟨0⟩ ⟨2⟩ ⟨1⟩ (by decide) h0 h2⟩

end Round

/-!
When a node is left without a register. In every run that reaches the end of the coloring pass, the
nodes with extended colors are those whose candidates are all held by neighbors colored before them.
Counting the holders bounds what it takes to crowd a node out.
-/

namespace Round

/-- What a finished coloring pass says about its spills, `candidates` being the lists it asked. -/
structure SpillsJustified (r : Round) (candidates : Value → List Register) : Prop where
  listed : ∀ v ∈ r.graph.nodes, r.candidatesOf v ≠ [] ∧ (r.candidatesOf v).Pairwise (· < ·) ∧
    ∀ reg, reg ∈ r.candidatesOf v ↔ reg ∈ candidates v
  exhausted_iff : ∀ v ∈ r.graph.nodes, (∃ id, r.color? v = some (.extended id)) ↔
    ∀ reg ∈ r.candidatesOf v, ∃ n ∈ r.graph.neighbors v,
      r.graph.Precedes n v ∧ r.resolved? n = some reg
  crowded : ∀ v ∈ r.graph.nodes, (∃ id, r.color? v = some (.extended id)) →
    (r.candidatesOf v).length ≤ (r.earlierHolders v).length
  roomy : ∀ v ∈ r.graph.nodes, (r.graph.neighbors v).size < (r.candidatesOf v).length →
    ∃ reg, r.resolved? v = some reg
  unextended : (∀ v ∈ r.graph.nodes,
    (r.graph.neighbors v).size < (r.candidatesOf v).length) → r.pool = []

variable {r : Round} {p : Procedure} {drawn : UInt64}

theorem listed_run (reached : (r.load p drawn).candidateFault? p.candidates = none) {v : Value}
    (hv : v ∈ (r.load p drawn).graph.nodes) :
    (r.load p drawn).candidatesOf v ≠ [] ∧
      ((r.load p drawn).candidatesOf v).Pairwise (· < ·) ∧
      ∀ reg, reg ∈ (r.load p drawn).candidatesOf v ↔ reg ∈ p.candidates v := by
  rw [candidatesOf_load reached hv]
  have hmem : ∀ reg, reg ∈ (FiniteSet.ofList (p.candidates v)).sorted ↔ reg ∈ p.candidates v := by
    intro reg
    rw [FiniteSet.mem_sorted, FiniteSet.mem_ofList]
  refine ⟨?_, FiniteSet.sorted_strict _, hmem⟩
  intro hnil
  obtain ⟨reg, hreg⟩ := List.exists_mem_of_ne_nil _ (candidateFault?_eq_none_iff.mp reached v hv)
  rw [← hmem, hnil] at hreg
  cases hreg

theorem exhausted_run_iff (reached : (r.load p drawn).candidateFault? p.candidates = none)
    {v : Value} (hv : v ∈ (r.run p drawn).2.graph.nodes) :
    (∃ id, (r.run p drawn).2.color? v = some (.extended id)) ↔
      ∀ reg ∈ (r.run p drawn).2.candidatesOf v, ∃ n ∈ (r.run p drawn).2.graph.neighbors v,
        (r.run p drawn).2.graph.Precedes n v ∧ (r.run p drawn).2.resolved? n = some reg := by
  have same := r.run_sameProblem p drawn
  rw [same.candidatesOf, same.graph]
  rw [same.graph] at hv
  obtain ⟨log, hrun⟩ := run_of_reached reached
  rw [hrun]
  exact isExtended_colorAll_iff load_uncolored (r.load p drawn).graph.byDegree_pairwise
    (Graph.mem_byDegree.mpr hv)

theorem held_of_mem_pool_run (reached : (r.load p drawn).candidateFault? p.candidates = none)
    {id : Int32} (h : id ∈ (r.run p drawn).2.pool) :
    ∃ v ∈ (r.run p drawn).2.graph.nodes, (r.run p drawn).2.color? v = some (.extended id) := by
  rw [(r.run_sameProblem p drawn).graph]
  obtain ⟨log, hrun⟩ := run_of_reached reached
  rw [hrun] at h ⊢
  obtain ⟨v, hv, hcolor⟩ := held_of_mem_pool load_uncolored
    (r.load p drawn).graph.byDegree_nodup h
  exact ⟨v, Graph.mem_byDegree.mp hv, hcolor⟩

/-- A node with fewer neighbors than candidates is not crowded out. -/
theorem spillsJustified_run (reached : (r.load p drawn).candidateFault? p.candidates = none) :
    (r.run p drawn).2.SpillsJustified p.candidates := by
  have same := r.run_sameProblem p drawn
  have listed : ∀ v ∈ (r.run p drawn).2.graph.nodes, (r.run p drawn).2.candidatesOf v ≠ [] ∧
      ((r.run p drawn).2.candidatesOf v).Pairwise (· < ·) ∧
      ∀ reg, reg ∈ (r.run p drawn).2.candidatesOf v ↔ reg ∈ p.candidates v := by
    intro v hv
    rw [same.candidatesOf]
    exact listed_run reached (same.graph ▸ hv)
  have crowded : ∀ v ∈ (r.run p drawn).2.graph.nodes,
      (∃ id, (r.run p drawn).2.color? v = some (.extended id)) →
      ((r.run p drawn).2.candidatesOf v).length ≤
        ((r.run p drawn).2.earlierHolders v).length := by
    intro v hv hext
    exact length_candidates_le_earlierHolders (nodup_of_strict (listed v hv).2.1)
      ((exhausted_run_iff reached hv).mp hext)
  have real : ∀ v ∈ (r.run p drawn).2.graph.nodes,
      ((r.run p drawn).2.graph.neighbors v).size < ((r.run p drawn).2.candidatesOf v).length →
      ∀ id, (r.run p drawn).2.color? v ≠ some (.extended id) := by
    intro v hv hroom id hext
    have := crowded v hv ⟨id, hext⟩
    have := (r.run p drawn).2.length_earlierHolders_le v
    omega
  refine ⟨listed, fun v hv => exhausted_run_iff reached hv, crowded, ?_, ?_⟩
  · intro v hv hroom
    obtain ⟨c, hc⟩ := colored_run reached hv
    cases c with
    | extended id => exact absurd hc (real v hv hroom id)
    | real index => exact (registersApart_run reached).resolved hc
  · intro hroom
    apply List.eq_nil_iff_forall_not_mem.mpr
    intro id hid
    obtain ⟨v, hv, hcolor⟩ := held_of_mem_pool_run reached hid
    exact real v hv (hroom v hv) id hcolor

/-- A node is left without a register exactly when neighbors colored before it hold all its
candidates. Of a run that succeeds the same can be said in terms of its decisions. -/
theorem no_unjustified_spill (r : Round) (p : Procedure) (drawn : UInt64)
    (reached : (r.load p drawn).candidateFault? p.candidates = none) :
    (r.run p drawn).2.SpillsJustified p.candidates ∧
      ∀ a, (r.run p drawn).1 = .ok a → ∀ v ∈ (r.run p drawn).2.graph.nodes,
        (((r.run p drawn).2.graph.neighbors v).size < ((r.run p drawn).2.candidatesOf v).length →
          ∃ reg, a.assigned? v = some reg) ∧
        (a.isSpilled v = true → ∀ reg ∈ (r.run p drawn).2.candidatesOf v,
          ∃ n ∈ (r.run p drawn).2.graph.neighbors v, a.assigned? n = some reg) := by
  have justified := spillsJustified_run reached
  refine ⟨justified, ?_⟩
  intro a ok v hv
  simp only [assigned?_run ok]
  refine ⟨justified.roomy v hv, ?_⟩
  intro hspilled reg hreg
  have hnode : v ∈ p.live.nodes r.marked :=
    mem_nodes_load.mp ((r.run_sameProblem p drawn).graph ▸ hv)
  rcases (isSpilled_run ok).mp hspilled with hext | hmarked
  · obtain ⟨n, hn, _, hres⟩ := (justified.exhausted_iff v hv).mp hext reg hreg
    exact ⟨n, hn, hres⟩
  · exact absurd (mem_markedLive.mp hmarked).1 (Liveness.mem_nodes.mp hnode).2.2

/-- Two values that overlap and one register. -/
def contest : Procedure := { relay with candidates := fun _ => [⟨3⟩, ⟨3⟩] }

theorem contest_spill_justified :
    ((new (Config.default.withSeed 5)).load contest 0).candidateFault? contest.candidates = none ∧
      ((new (Config.default.withSeed 5)).run contest 0).2.color? ⟨1⟩ = some (.extended (-1)) ∧
      ((new (Config.default.withSeed 5)).run contest 0).2.SpillsJustified contest.candidates := by
  have reached : ((new (Config.default.withSeed 5)).load contest 0).candidateFault?
      contest.candidates = none := by decide +kernel
  exact ⟨reached, by decide +kernel, (no_unjustified_spill _ contest 0 reached).1⟩

end Round

/-!
Assignments are legal. The register of a value is one of its candidates, and its preferences are all
its candidates in ascending order, turned so that the register comes first. With the candidates of a
table of register classes that means a register of the class last set for the value, and none that
was reserved at any time.
-/

namespace Round

theorem rotateLeft_eq_drop_append_take {α : Type} {xs : List α} {k : Nat} (h : k < xs.length) :
    xs.rotateLeft k = xs.drop k ++ xs.take k := by
  unfold List.rotateLeft
  dsimp only
  split
  · obtain rfl : k = 0 := by omega
    simp
  · rw [Nat.mod_eq_of_lt h]

/-- The list `ps` is the ascending list of the elements that `p` holds of, turned to start with
`first`. -/
structure Turned (ps : List Register) (first : Register) (p : Register → Prop) : Prop where
  head : ps.head? = some first
  nodup : ps.Nodup
  mem_iff : ∀ reg, reg ∈ ps ↔ p reg
  rotated : ∃ (regs : List Register) (k : Nat), regs.Pairwise (· < ·) ∧
    (∀ reg, reg ∈ regs ↔ p reg) ∧ k < regs.length ∧ ps = regs.drop k ++ regs.take k

theorem turned_rotateLeft {regs : List Register} {k : Nat} {first : Register}
    (strict : regs.Pairwise (· < ·)) (place : regs[k]? = some first) :
    Turned (regs.rotateLeft k) first (· ∈ regs) := by
  obtain ⟨hlt, hget⟩ := List.getElem?_eq_some_iff.mp place
  have hperm : (regs.drop k ++ regs.take k).Perm regs := by
    have hswap : (regs.drop k ++ regs.take k).Perm (regs.take k ++ regs.drop k) :=
      List.perm_append_comm
    rwa [List.take_append_drop] at hswap
  have nodup : regs.Nodup := nodup_of_strict strict
  rw [rotateLeft_eq_drop_append_take hlt]
  refine ⟨?_, hperm.symm.nodup nodup, fun reg => hperm.mem_iff, ?_⟩
  · rw [List.drop_eq_getElem_cons hlt, hget]
    rfl
  · exact ⟨regs, k, strict, fun _ => .rfl, hlt, rfl⟩

theorem Turned.congr {ps : List Register} {first : Register} {p q : Register → Prop}
    (h : Turned ps first p) (same : ∀ reg, p reg ↔ q reg) : Turned ps first q := by
  obtain rfl : p = q := funext fun reg => propext (same reg)
  exact h

section Run

variable {r : Round} {p : Procedure} {drawn : UInt64} {a : Allocation}

/-- The assigned register and the preferences come from one place in the stored candidates. -/
theorem preference_of_assigned (ok : (r.run p drawn).1 = .ok a) {v : Value} {reg : Register}
    (assigned : a.assigned? v = some reg) : ∃ k,
      ((r.run p drawn).2.candidatesOf v)[k]? = some reg ∧
      a.preferences.get? v = some (((r.run p drawn).2.candidatesOf v).rotateLeft k) := by
  rw [assigned?_run ok] at assigned
  obtain ⟨k, hcolor, hplace⟩ := resolved?_eq_some_iff.mp assigned
  refine ⟨k, hplace, (preference?_iff_fate ok).mpr ⟨_, mem_fates.mpr (.inl ⟨_, hcolor, rfl⟩), ?_⟩⟩
  simp [fateOf, hplace, Fate.preference?]

theorem turned_of_assigned (ok : (r.run p drawn).1 = .ok a) {v : Value} {reg : Register}
    (assigned : a.assigned? v = some reg) :
    ∃ ps, a.preferences.get? v = some ps ∧ Turned ps reg (· ∈ p.candidates v) := by
  have reached := ok_reached ok
  obtain ⟨k, hplace, hprefers⟩ := preference_of_assigned ok assigned
  have hnode : v ∈ (r.run p drawn).2.graph.nodes := by
    rw [assigned?_run ok] at assigned
    obtain ⟨_, hcolor, _⟩ := resolved?_eq_some_iff.mp assigned
    exact nodes_of_colored reached v _ hcolor
  obtain ⟨_, strict, hmem⟩ := (spillsJustified_run reached).listed v hnode
  exact ⟨_, hprefers, (turned_rotateLeft strict hplace).congr hmem⟩

end Run

open RegisterClassTable (Edit ofEdits classesAdded classIdCount LastSet Issued)

/-- An assigned register is one of the class last set for the value and was never reserved. The
preferences are all such registers, ascending from the assigned one on and then from the lowest. -/
theorem assignments_are_legal (r : Round) (live : Liveness) (edits : List Edit) (usage : Usage)
    (drawn : UInt64) (a : Allocation)
    (bound : (classesAdded edits).length ≤ classIdCount)
    (ok : (r.run ⟨live, (ofEdits edits).candidates, usage⟩ drawn).1 = .ok a)
    (v : Value) (reg : Register) (assigned : a.assigned? v = some reg) :
    ∃ id c ps, LastSet edits v id ∧ Issued edits id c ∧ (∀ d, Issued edits id d → d = c) ∧
      reg ∈ c.registers ∧ .reserve reg ∉ edits ∧
      a.preferences.get? v = some ps ∧
      Turned ps reg fun other => other ∈ c.registers ∧ .reserve other ∉ edits := by
  obtain ⟨ps, hprefers, hturned⟩ := turned_of_assigned ok assigned
  have hreg : reg ∈ (ofEdits edits).candidates v :=
    (hturned.mem_iff reg).mp (List.mem_of_mem_head? hturned.head)
  obtain ⟨id, c, last, issued⟩ :=
    RegisterClassTable.exists_class_of_mem_candidates bound hreg
  have hmem : ∀ other, other ∈ (ofEdits edits).candidates v ↔
      other ∈ c.registers ∧ .reserve other ∉ edits :=
    fun _ => RegisterClassTable.mem_candidates_iff bound last issued
  obtain ⟨hlisted, hfree⟩ := (hmem reg).mp hreg
  exact ⟨id, c, ps, last, issued, fun _ => issued.unique bound, hlisted, hfree, hprefers,
    hturned.congr hmem⟩

/-- The first value is given a class that is not there and then another, which is added after it was
first mentioned and loses a register to a late reservation. -/
def lateEdits : List Edit :=
  [.setClass ⟨0⟩ ⟨9⟩, .addClass ⟨"narrow", [⟨4⟩]⟩, .setClass ⟨1⟩ ⟨1⟩, .setClass ⟨0⟩ ⟨1⟩,
    .addClass ⟨"wide", [⟨3⟩, ⟨1⟩, ⟨5⟩, ⟨3⟩, ⟨2⟩]⟩, .setClass ⟨2⟩ ⟨0⟩, .reserve ⟨1⟩]

def lateRelay : Procedure := { relay with candidates := (ofEdits lateEdits).candidates }

theorem late_relay_is_legal : ∃ a,
    (classesAdded lateEdits).length ≤ classIdCount ∧
      ((new (Config.default.withSeed 5)).run lateRelay 0).1 = .ok a ∧
      a.assigned? ⟨0⟩ = some ⟨5⟩ ∧
      ∃ id c ps, LastSet lateEdits ⟨0⟩ id ∧ Issued lateEdits id c ∧
        (∀ d, Issued lateEdits id d → d = c) ∧ ⟨5⟩ ∈ c.registers ∧ .reserve ⟨5⟩ ∉ lateEdits ∧
        a.preferences.get? ⟨0⟩ = some ps ∧
        Turned ps ⟨5⟩ fun other => other ∈ c.registers ∧ .reserve other ∉ lateEdits := by
  have hrun : ((new (Config.default.withSeed 5)).run lateRelay 0).1.toOption.map
      (fun a => a.assigned? ⟨0⟩) = some (some ⟨5⟩) := by
    decide +kernel
  cases hok : ((new (Config.default.withSeed 5)).run lateRelay 0).1 with
  | error e =>
    rw [hok] at hrun
    cases hrun
  | ok a =>
    rw [hok] at hrun
    have hassigned : a.assigned? ⟨0⟩ = some ⟨5⟩ := Option.some.inj hrun
    exact ⟨a, by decide, rfl, hassigned, assignments_are_legal _ lateRelay.live lateEdits
      lateRelay.usage 0 a (by decide) hok ⟨0⟩ ⟨5⟩ hassigned⟩

end Round

end RegisterColoring
