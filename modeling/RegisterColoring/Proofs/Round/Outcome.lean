import Mathlib.Data.List.Nodup
import RegisterColoring.Proofs.Coloring.Pool
import RegisterColoring.Proofs.Round.Load

/-!
What a run leaves behind and what its allocation says. After the coloring pass only the log changes,
and the decisions are read off the colors and the marks, no value decided twice.
-/

namespace RegisterColoring

theorem Allocation.assigned?_eq_some_iff {a : Allocation} {v : Value} {reg : Register} :
    a.assigned? v = some reg ↔ a.decision? v = some (.assign reg) := by
  unfold Allocation.assigned?
  cases a.decision? v with
  | none => simp
  | some d => cases d <;> simp [Decision.register?]

/-- The error that a run ends with, if it ends with one. -/
def Round.error? : Except AllocError Allocation → Option AllocError
  | .error e => some e
  | .ok _ => none

namespace Round

theorem error?_eq_some_iff {result : Except AllocError Allocation} {e : AllocError} :
    error? result = some e ↔ result = .error e := by
  cases result <;> simp [error?]

theorem error?_eq_none_iff {result : Except AllocError Allocation} :
    error? result = none ↔ ∃ a, result = .ok a := by
  cases result <;> simp [error?]

theorem exists_ok_of_spilled {result : Except AllocError Allocation} {vs : List Value}
    (h : result.toOption.map Allocation.spilled = some vs) :
    ∃ a, result = .ok a ∧ a.spilled = vs := by
  cases result with
  | error => cases h
  | ok a => exact ⟨a, rfl, Option.some.inj h⟩

/-- The rest of a run once the round is loaded. -/
def conclude (r : Round) (p : Procedure) (marked : FiniteSet Value) :
    Except AllocError Allocation × Round :=
  match r.candidateFault? p.candidates with
  | some e => (.error e, r)
  | none =>
    match r.colorGraph.checked? with
    | some e => (.error e, r.colorGraph)
    | none => r.colorGraph.resolve p.live marked

theorem run_eq_conclude (r : Round) (p : Procedure) (drawn : UInt64) :
    r.run p drawn = (r.load p drawn).conclude p r.marked := rfl

/-- The first error wins: a node without candidates, then the check, then the fates. -/
theorem error?_conclude (r : Round) (p : Procedure) (marked : FiniteSet Value) :
    error? (r.conclude p marked).1 = (r.candidateFault? p.candidates).or
      (r.colorGraph.checked?.or ((r.colorGraph.fates p.live marked).findSome?
        fun f => p.live.failure? f.1 f.2)) := by
  unfold conclude
  cases r.candidateFault? p.candidates with
  | some e => rfl
  | none =>
    dsimp only
    cases r.colorGraph.checked? with
    | some e => rfl
    | none =>
      dsimp only [resolve]
      cases (r.colorGraph.fates p.live marked).findSome? fun f => p.live.failure? f.1 f.2 with
      | some e => rfl
      | none => rfl

theorem colorGraph_sameProblem (r : Round) : r.SameProblem r.colorGraph :=
  (r.colorAll_sameProblem r.graph.byDegree).trans ⟨rfl, rfl, rfl, rfl, rfl, rfl⟩

theorem registersApart_colorGraph {r : Round} (consistent : r.graph.Consistent)
    (uncolored : r.Uncolored) : r.colorGraph.RegistersApart := by
  obtain ⟨placed, apart⟩ :=
    (RegistersApart.of_uncolored uncolored).colorAll consistent r.graph.byDegree
  exact ⟨placed, apart⟩

/-- The ways a loaded round ends: before the coloring pass, at the check, with a value that may not
be spilled, or with an allocation. -/
inductive Concludes (r : Round) (p : Procedure) (marked : FiniteSet Value) :
    Except AllocError Allocation → Round → Prop where
  | starved (e : AllocError) (starved : r.candidateFault? p.candidates = some e) :
      Concludes r p marked (.error e) r
  | faulty (e : AllocError) (reached : r.candidateFault? p.candidates = none)
      (faulty : r.colorGraph.checked? = some e) :
      Concludes r p marked (.error e) r.colorGraph
  | failed (e : AllocError) (reached : r.candidateFault? p.candidates = none)
      (sound : r.colorGraph.checked? = none)
      (failed : ((r.colorGraph.fates p.live marked).findSome?
        fun f => p.live.failure? f.1 f.2) = some e) :
      Concludes r p marked (.error e)
        (r.colorGraph.noteSpills p.live (r.colorGraph.fates p.live marked))
  | allocated (reached : r.candidateFault? p.candidates = none)
      (sound : r.colorGraph.checked? = none)
      (done : ((r.colorGraph.fates p.live marked).findSome?
        fun f => p.live.failure? f.1 f.2) = none) :
      Concludes r p marked (.ok (r.colorGraph.allocation (r.colorGraph.fates p.live marked)))
        (r.colorGraph.noteSpills p.live (r.colorGraph.fates p.live marked))

theorem concludes_conclude (r : Round) (p : Procedure) (marked : FiniteSet Value) :
    r.Concludes p marked (r.conclude p marked).1 (r.conclude p marked).2 := by
  unfold conclude
  cases reached : r.candidateFault? p.candidates with
  | some e => exact .starved e reached
  | none =>
    dsimp only
    cases sound : r.colorGraph.checked? with
    | some e => exact .faulty e reached sound
    | none =>
      dsimp only [resolve]
      cases done : (r.colorGraph.fates p.live marked).findSome?
          fun f => p.live.failure? f.1 f.2 with
      | some e => exact .failed e reached sound done
      | none => exact .allocated reached sound done

/-- Whichever way a round ends, it keeps what it was loaded with. -/
theorem conclude_sameProblem (r : Round) (p : Procedure) (marked : FiniteSet Value) :
    r.SameProblem (r.conclude p marked).2 := by
  have colored := r.colorGraph_sameProblem
  have noted : r.SameProblem
      (r.colorGraph.noteSpills p.live (r.colorGraph.fates p.live marked)) :=
    colored.trans ⟨rfl, rfl, rfl, rfl, rfl, rfl⟩
  have h := r.concludes_conclude p marked
  generalize r.conclude p marked = outcome at h
  obtain ⟨result, s⟩ := outcome
  cases h with
  | starved => exact .refl _
  | faulty => exact colored
  | failed => exact noted
  | allocated => exact noted

theorem conclude_of_starved {r : Round} {p : Procedure} {marked : FiniteSet Value} {e : AllocError}
    (starved : r.candidateFault? p.candidates = some e) : r.conclude p marked = (.error e, r) := by
  rw [conclude, starved]

theorem conclude_of_reached {r : Round} {p : Procedure}
    (reached : r.candidateFault? p.candidates = none) (marked : FiniteSet Value) :
    ∃ log, (r.conclude p marked).2 = { r.colorAll r.graph.byDegree with log := log } := by
  have h := r.concludes_conclude p marked
  generalize r.conclude p marked = outcome at h
  obtain ⟨result, s⟩ := outcome
  cases h with
  | starved e starved =>
    rw [reached] at starved
    cases starved
  | faulty => exact ⟨_, rfl⟩
  | failed => exact ⟨_, rfl⟩
  | allocated => exact ⟨_, rfl⟩

theorem conclude_ok {r : Round} {p : Procedure} {marked : FiniteSet Value} {a : Allocation}
    (ok : (r.conclude p marked).1 = .ok a) :
    r.candidateFault? p.candidates = none ∧
      a = (r.conclude p marked).2.allocation ((r.conclude p marked).2.fates p.live marked) := by
  have h := r.concludes_conclude p marked
  generalize r.conclude p marked = outcome at h ok ⊢
  obtain ⟨result, s⟩ := outcome
  cases h with
  | starved => cases ok
  | faulty => cases ok
  | failed => cases ok
  | allocated reached sound done => exact ⟨reached, (Except.ok.inj ok).symm⟩

def coloredFates (r : Round) : List (Value × Fate) :=
  r.colors.sortedEntries.map fun e => (e.1, r.fateOf e.1 e.2)

def markedFates (live : Liveness) (marked : FiniteSet Value) : List (Value × Fate) :=
  (markedLive live marked).map fun v => (v, .spilled)

theorem fates_eq (r : Round) (live : Liveness) (marked : FiniteSet Value) :
    r.fates live marked = r.coloredFates ++ markedFates live marked := rfl

theorem mem_markedLive {live : Liveness} {marked : FiniteSet Value} {v : Value} :
    v ∈ markedLive live marked ↔ v ∈ marked ∧ v ∈ live.values ∧ live.hasRange v = true := by
  simp [markedLive]

theorem markedLive_strict (live : Liveness) (marked : FiniteSet Value) :
    (markedLive live marked).Pairwise (· < ·) := marked.sorted_strict.filter _

theorem markedLive_eq_of_mem_iff {live live' : Liveness} {m n : FiniteSet Value}
    (same : ∀ v, (v ∈ m ∧ v ∈ live.values ∧ live.hasRange v = true) ↔
      (v ∈ n ∧ v ∈ live'.values ∧ live'.hasRange v = true)) :
    markedLive live m = markedLive live' n := by
  apply eq_of_strict_of_mem_iff (markedLive_strict live m) (markedLive_strict live' n)
  intro v
  rw [mem_markedLive, mem_markedLive, same]

theorem markedLive_congr {live live' : Liveness} (answers : live.AnswersAlike live')
    (values : ∀ v, v ∈ live.values ↔ v ∈ live'.values) {m n : FiniteSet Value}
    (marks : ∀ v, v ∈ m ↔ v ∈ n) : markedLive live m = markedLive live' n := by
  apply markedLive_eq_of_mem_iff
  intro v
  rw [values, answers.hasRange, marks]

theorem mem_coloredFates {r : Round} {v : Value} {f : Fate} :
    (v, f) ∈ r.coloredFates ↔ ∃ c, r.color? v = some c ∧ f = r.fateOf v c := by
  simp only [coloredFates, List.mem_map, Prod.mk.injEq, Prod.exists]
  constructor
  · rintro ⟨w, c, hc, rfl, rfl⟩
    exact ⟨c, FiniteMap.mem_sortedEntries.mp hc, rfl⟩
  · rintro ⟨c, hc, rfl⟩
    exact ⟨v, c, FiniteMap.mem_sortedEntries.mpr hc, rfl, rfl⟩

theorem mem_markedFates {live : Liveness} {marked : FiniteSet Value} {v : Value} {f : Fate} :
    (v, f) ∈ markedFates live marked ↔ v ∈ markedLive live marked ∧ f = .spilled := by
  simp only [markedFates, List.mem_map, Prod.mk.injEq]
  constructor
  · rintro ⟨w, hw, rfl, rfl⟩
    exact ⟨hw, rfl⟩
  · rintro ⟨hv, rfl⟩
    exact ⟨v, hv, rfl, rfl⟩

theorem mem_fates {r : Round} {live : Liveness} {marked : FiniteSet Value} {v : Value} {f : Fate} :
    (v, f) ∈ r.fates live marked ↔
      (∃ c, r.color? v = some c ∧ f = r.fateOf v c) ∨
        (v ∈ markedLive live marked ∧ f = .spilled) := by
  rw [fates_eq, List.mem_append, mem_coloredFates, mem_markedFates]

theorem keys_coloredFates_strict (r : Round) :
    (r.coloredFates.map Prod.fst).Pairwise (· < ·) := by
  have hkeys : r.coloredFates.map Prod.fst = r.colors.sortedEntries.map Prod.fst := by
    simp [coloredFates]
  rw [hkeys]
  exact r.colors.sortedEntries_strict

theorem keys_markedFates (live : Liveness) (marked : FiniteSet Value) :
    (markedFates live marked).map Prod.fst = markedLive live marked := by
  simp [markedFates, Function.comp_def]

/-- No value has two fates when the colored ones are not marked. -/
theorem nodup_keys_fates {r : Round} {live : Liveness} {marked : FiniteSet Value}
    (unmarked : ∀ v c, r.color? v = some c → v ∉ marked) :
    ((r.fates live marked).map Prod.fst).Nodup := by
  rw [fates_eq, List.map_append, keys_markedFates, List.nodup_append]
  refine ⟨nodup_of_strict r.keys_coloredFates_strict,
    nodup_of_strict (markedLive_strict live marked), ?_⟩
  rintro v hv _ hw rfl
  obtain ⟨⟨_, f⟩, hf, rfl⟩ := List.mem_map.mp hv
  obtain ⟨c, hc, _⟩ := mem_coloredFates.mp hf
  exact unmarked _ c hc (mem_markedLive.mp hw).1

/-- Where no value has two fates, what is read off the fates is a map of the values. -/
theorem get?_ofList_fates {β : Type} {fs : List (Value × Fate)} (nodup : (fs.map Prod.fst).Nodup)
    (read : Fate → Option β) {v : Value} {b : β} :
    (FiniteMap.ofList (fs.filterMap fun f => (read f.2).map fun b => (f.1, b))).get? v = some b ↔
      ∃ f, (v, f) ∈ fs ∧ read f = some b := by
  have hsub : ((fs.filterMap fun f => (read f.2).map fun b => (f.1, b)).map Prod.fst).Sublist
      (fs.map Prod.fst) := by
    induction fs with
    | nil => exact .slnil
    | cons f fs ih =>
      have tail := ih (List.nodup_cons.mp nodup).2
      cases hb : read f.2 with
      | none => simpa [hb] using tail.cons f.1
      | some b => simpa [hb] using tail
  rw [FiniteMap.get?_ofList_eq_some_iff (nodup.sublist hsub), List.mem_filterMap]
  constructor
  · rintro ⟨⟨w, f⟩, hf, h⟩
    obtain ⟨b', hb, heq⟩ := Option.map_eq_some_iff.mp h
    cases heq
    exact ⟨f, hf, hb⟩
  · rintro ⟨f, hf, hb⟩
    exact ⟨(v, f), hf, by simp [hb]⟩

theorem fateOf_assign_iff {r : Round} {v : Value} {reg : Register} {c : Color}
    (hc : r.color? v = some c) :
    (r.fateOf v c).decision? = some (.assign reg) ↔ r.resolved? v = some reg := by
  unfold fateOf resolved?
  rw [hc]
  cases c with
  | extended id => simp [Fate.decision?]
  | real index =>
    dsimp only
    cases (r.candidatesOf v)[index]? <;> simp [Fate.decision?]

theorem fateOf_spill_iff {r : Round} {v : Value} {c : Color} :
    (r.fateOf v c).decision? = some .spill ↔ ∃ id, c = .extended id := by
  unfold fateOf
  cases c with
  | extended id => simp [Fate.decision?]
  | real index =>
    dsimp only
    cases (r.candidatesOf v)[index]? <;> simp [Fate.decision?]

section Run

variable {r : Round} {p : Procedure} {drawn : UInt64}

theorem run_of_reached (reached : (r.load p drawn).candidateFault? p.candidates = none) :
    ∃ log, (r.run p drawn).2 =
      { (r.load p drawn).colorAll (r.load p drawn).graph.byDegree with log := log } :=
  conclude_of_reached reached r.marked

theorem concludes_run (r : Round) (p : Procedure) (drawn : UInt64) :
    (r.load p drawn).Concludes p r.marked (r.run p drawn).1 (r.run p drawn).2 :=
  concludes_conclude (r.load p drawn) p r.marked

theorem run_sameProblem (r : Round) (p : Procedure) (drawn : UInt64) :
    (r.load p drawn).SameProblem (r.run p drawn).2 :=
  conclude_sameProblem (r.load p drawn) p r.marked

theorem mem_nodes_run {v : Value} :
    v ∈ (r.run p drawn).2.graph.nodes ↔ v ∈ p.live.nodes r.marked := by
  rw [(r.run_sameProblem p drawn).graph, mem_nodes_load]

theorem registersApart_run (reached : (r.load p drawn).candidateFault? p.candidates = none) :
    (r.run p drawn).2.RegistersApart := by
  obtain ⟨log, hrun⟩ := run_of_reached reached
  obtain ⟨placed, apart⟩ := registersApart_colorGraph load_consistent load_uncolored
    (r := r.load p drawn)
  rw [hrun]
  exact ⟨placed, apart⟩

theorem colored_run (reached : (r.load p drawn).candidateFault? p.candidates = none) {v : Value}
    (hv : v ∈ (r.run p drawn).2.graph.nodes) : ∃ c, (r.run p drawn).2.color? v = some c := by
  rw [(r.run_sameProblem p drawn).graph] at hv
  obtain ⟨log, hrun⟩ := run_of_reached reached
  rw [hrun]
  exact (r.load p drawn).colored_of_mem (Graph.mem_byDegree.mpr hv)

theorem mem_nodes_of_color? (reached : (r.load p drawn).candidateFault? p.candidates = none)
    {v : Value} {c : Color} (h : (r.run p drawn).2.color? v = some c) :
    v ∈ p.live.nodes r.marked := by
  obtain ⟨log, hrun⟩ := run_of_reached reached
  rw [hrun] at h
  exact mem_nodes_load.mp (Graph.mem_byDegree.mp (mem_of_color?_colorAll load_uncolored h))

theorem ok_reached {a : Allocation} (ok : (r.run p drawn).1 = .ok a) :
    (r.load p drawn).candidateFault? p.candidates = none := (conclude_ok ok).1

theorem nodes_of_colored (reached : (r.load p drawn).candidateFault? p.candidates = none)
    (v : Value) (c : Color) (h : (r.run p drawn).2.color? v = some c) :
    v ∈ (r.run p drawn).2.graph.nodes := mem_nodes_run.mpr (mem_nodes_of_color? reached h)

theorem nodup_fates_run (reached : (r.load p drawn).candidateFault? p.candidates = none) :
    (((r.run p drawn).2.fates p.live r.marked).map Prod.fst).Nodup :=
  nodup_keys_fates fun _ _ hc => (Liveness.mem_nodes.mp (mem_nodes_of_color? reached hc)).2.2

theorem decision?_iff_fate {a : Allocation} (ok : (r.run p drawn).1 = .ok a) {v : Value}
    {d : Decision} : a.decision? v = some d ↔
      ∃ f, (v, f) ∈ (r.run p drawn).2.fates p.live r.marked ∧ f.decision? = some d := by
  obtain ⟨reached, ha⟩ := conclude_ok ok
  rw [ha, ← run_eq_conclude]
  exact get?_ofList_fates (nodup_fates_run reached) Fate.decision?

theorem preference?_iff_fate {a : Allocation} (ok : (r.run p drawn).1 = .ok a) {v : Value}
    {ps : List Register} : a.preferences.get? v = some ps ↔
      ∃ f, (v, f) ∈ (r.run p drawn).2.fates p.live r.marked ∧ f.preference? = some ps := by
  obtain ⟨reached, ha⟩ := conclude_ok ok
  rw [ha, ← run_eq_conclude]
  exact get?_ofList_fates (nodup_fates_run reached) Fate.preference?

/-- The decisions of an allocation are the fates of the run that made it. -/
theorem decision?_run {a : Allocation} (ok : (r.run p drawn).1 = .ok a) {v : Value}
    {d : Decision} : a.decision? v = some d ↔
      (∃ c, (r.run p drawn).2.color? v = some c ∧
        ((r.run p drawn).2.fateOf v c).decision? = some d) ∨
      (v ∈ markedLive p.live r.marked ∧ d = .spill) := by
  rw [decision?_iff_fate ok]
  simp only [mem_fates]
  constructor
  · rintro ⟨f, ⟨c, hc, rfl⟩ | ⟨hv, rfl⟩, hd⟩
    · exact .inl ⟨c, hc, hd⟩
    · exact .inr ⟨hv, (Option.some.inj hd).symm⟩
  · intro hm
    rcases hm with ⟨c, hc, hd⟩ | ⟨hv, rfl⟩
    · exact ⟨_, .inl ⟨c, hc, rfl⟩, hd⟩
    · exact ⟨_, .inr ⟨hv, rfl⟩, rfl⟩

theorem assigned?_run {a : Allocation} (ok : (r.run p drawn).1 = .ok a) (v : Value) :
    a.assigned? v = (r.run p drawn).2.resolved? v := by
  apply Option.ext
  intro reg
  rw [Allocation.assigned?_eq_some_iff, decision?_run ok]
  constructor
  · intro hm
    rcases hm with ⟨c, hc, hd⟩ | ⟨_, hd⟩
    · exact (fateOf_assign_iff hc).mp hd
    · cases hd
  · intro h
    obtain ⟨index, hc, _⟩ := resolved?_eq_some_iff.mp h
    exact .inl ⟨_, hc, (fateOf_assign_iff hc).mpr h⟩

theorem isSpilled_run {a : Allocation} (ok : (r.run p drawn).1 = .ok a) {v : Value} :
    a.isSpilled v = true ↔
      (∃ id, (r.run p drawn).2.color? v = some (.extended id)) ∨
        v ∈ markedLive p.live r.marked := by
  rw [Allocation.isSpilled, decide_eq_true_eq, decision?_run ok]
  simp only [fateOf_spill_iff, and_true]
  constructor
  · intro hm
    rcases hm with ⟨c, hc, id, rfl⟩ | hv
    · exact .inl ⟨id, hc⟩
    · exact .inr hv
  · intro hm
    rcases hm with ⟨id, hc⟩ | hv
    · exact .inl ⟨_, hc, id, rfl⟩
    · exact .inr hv

end Run

end Round

/-!
An allocation and the round it came from. The decisions are put together from the colored nodes and
from the marked values; every live value is in exactly one of the two lists, and no other value is
in either. What the allocation says of a value is what the round has stored for it.
-/

/-- Only a listed value with a live range needs a location. -/
def Liveness.IsLive (live : Liveness) (v : Value) : Prop :=
  v ∈ live.values ∧ live.hasRange v = true

theorem Fate.preferred_iff_assigned {f : Fate} :
    (∃ ps, f.preference? = some ps) ↔ ∃ reg, f.decision? = some (.assign reg) := by
  cases f <;> simp [preference?, decision?]

namespace Round

theorem mem_markedLive_iff_isLive {live : Liveness} {marked : FiniteSet Value} {v : Value} :
    v ∈ markedLive live marked ↔ v ∈ marked ∧ live.IsLive v := mem_markedLive

/-- A color is always decided: a real one is a place in the list of candidates. -/
theorem exists_decision_fateOf {r : Round} (apart : r.RegistersApart) {v : Value} {c : Color}
    (hc : r.color? v = some c) : ∃ d, (r.fateOf v c).decision? = some d := by
  cases c with
  | extended id => exact ⟨.spill, rfl⟩
  | real index =>
    obtain ⟨reg, hreg⟩ := apart.resolved hc
    exact ⟨.assign reg, (fateOf_assign_iff hc).mpr hreg⟩

/-- The allocation `a` accounts for each value that the round `s` was given, and agrees with it. The
fates are the decisions in the order in which they were made. -/
structure Accounts (s : Round) (a : Allocation) (live : Liveness) (marked : FiniteSet Value) :
    Prop where
  decided_iff : ∀ v, v ∈ a.decisions.keys ↔ live.IsLive v
  once : ((s.fates live marked).map Prod.fst).Nodup
  spilled_of_marked : ∀ v, live.IsLive v → v ∈ marked →
    a.decision? v = some .spill ∧ v ∉ s.graph.nodes
  node_of_unmarked : ∀ v, live.IsLive v → v ∉ marked → v ∈ s.graph.nodes
  resolved : ∀ v, s.resolved? v = a.assigned? v
  spilled_iff : ∀ v, a.decision? v = some .spill ↔
    (∃ id, s.color? v = some (.extended id)) ∨ (v ∈ marked ∧ live.IsLive v)
  preferred_iff : ∀ v, v ∈ a.preferences.keys ↔ ∃ reg, a.assigned? v = some reg
  weighed_iff : ∀ v, v ∈ a.weights.keys ↔ v ∈ s.graph.nodes ∨ v ∈ marked
  weights : a.weights = s.weights
  extendedColors : a.extendedColors = s.pool.length

section Run

variable {r : Round} {p : Procedure} {drawn : UInt64} {a : Allocation}

theorem node_run_iff {v : Value} :
    v ∈ (r.run p drawn).2.graph.nodes ↔ p.live.IsLive v ∧ v ∉ r.marked := by
  rw [mem_nodes_run, Liveness.mem_nodes, Liveness.IsLive, and_assoc]

theorem decided_run_iff (ok : (r.run p drawn).1 = .ok a) {v : Value} :
    v ∈ a.decisions.keys ↔ p.live.IsLive v := by
  have reached := ok_reached ok
  rw [FiniteMap.mem_keys, Option.isSome_iff_exists]
  constructor
  · rintro ⟨d, hd⟩
    rcases (decision?_run ok).mp hd with ⟨c, hc, _⟩ | ⟨hv, _⟩
    · exact (node_run_iff.mp (nodes_of_colored reached v c hc)).1
    · exact (mem_markedLive_iff_isLive.mp hv).2
  · intro hlive
    by_cases hmarked : v ∈ r.marked
    · refine ⟨.spill, ?_⟩
      apply (decision?_run ok).mpr
      exact .inr ⟨mem_markedLive_iff_isLive.mpr ⟨hmarked, hlive⟩, rfl⟩
    · obtain ⟨c, hc⟩ := colored_run reached (node_run_iff.mpr ⟨hlive, hmarked⟩)
      obtain ⟨d, hd⟩ := exists_decision_fateOf (registersApart_run reached) hc
      refine ⟨d, ?_⟩
      apply (decision?_run ok).mpr
      exact .inl ⟨c, hc, hd⟩

theorem spilled_run_iff (ok : (r.run p drawn).1 = .ok a) {v : Value} :
    a.decision? v = some .spill ↔
      (∃ id, (r.run p drawn).2.color? v = some (.extended id)) ∨
        (v ∈ r.marked ∧ p.live.IsLive v) := by
  rw [← mem_markedLive_iff_isLive, ← isSpilled_run ok, Allocation.isSpilled, decide_eq_true_eq]

/-- A preference is stored with an assignment and with nothing else. -/
theorem preferred_run_iff (ok : (r.run p drawn).1 = .ok a) {v : Value} :
    v ∈ a.preferences.keys ↔ ∃ reg, a.assigned? v = some reg := by
  rw [FiniteMap.mem_keys, Option.isSome_iff_exists]
  simp only [preference?_iff_fate ok, Allocation.assigned?_eq_some_iff, decision?_iff_fate ok]
  constructor
  · rintro ⟨ps, f, hf, hps⟩
    obtain ⟨reg, hreg⟩ := Fate.preferred_iff_assigned.mp ⟨ps, hps⟩
    exact ⟨reg, f, hf, hreg⟩
  · rintro ⟨reg, f, hf, hreg⟩
    obtain ⟨ps, hps⟩ := Fate.preferred_iff_assigned.mpr ⟨reg, hreg⟩
    exact ⟨ps, f, hf, hps⟩

theorem weights_run (ok : (r.run p drawn).1 = .ok a) : a.weights = (r.run p drawn).2.weights := by
  rw [(conclude_ok ok).2]
  rfl

theorem weight?_run_eq_some_iff {v : Value} {w : Weight} :
    (r.run p drawn).2.weight? v = some w ↔
      (v ∈ (r.run p drawn).2.graph.nodes ∨ v ∈ r.marked) ∧ w = p.usage.weight v := by
  have same := r.run_sameProblem p drawn
  rw [weight?, same.weights, same.graph]
  exact weight?_load_eq_some_iff

theorem weights_run_iff (ok : (r.run p drawn).1 = .ok a) {v : Value} {w : Weight} :
    a.weights.get? v = some w ↔
      (v ∈ (r.run p drawn).2.graph.nodes ∨ v ∈ r.marked) ∧ w = p.usage.weight v := by
  rw [weights_run ok]
  exact weight?_run_eq_some_iff

theorem weighed_run_iff {v : Value} : v ∈ (r.run p drawn).2.weights.keys ↔
    v ∈ (r.run p drawn).2.graph.nodes ∨ v ∈ r.marked := by
  rw [FiniteMap.mem_keys, Option.isSome_iff_exists]
  constructor
  · rintro ⟨w, hw⟩
    exact (weight?_run_eq_some_iff.mp hw).1
  · intro hv
    exact ⟨_, weight?_run_eq_some_iff.mpr ⟨hv, rfl⟩⟩

/-- An allocation decides every live value once and no other value, and what it says of a value is
what the round has stored for it. -/
theorem decides_live_values_once (r : Round) (p : Procedure) (drawn : UInt64) (a : Allocation)
    (ok : (r.run p drawn).1 = .ok a) : (r.run p drawn).2.Accounts a p.live r.marked where
  decided_iff _ := decided_run_iff ok
  once := nodup_fates_run (ok_reached ok)
  spilled_of_marked v hlive hmarked := by
    refine ⟨(spilled_run_iff ok).mpr (.inr ⟨hmarked, hlive⟩), ?_⟩
    intro hv
    exact (node_run_iff.mp hv).2 hmarked
  node_of_unmarked v hlive hmarked := node_run_iff.mpr ⟨hlive, hmarked⟩
  resolved v := (assigned?_run ok v).symm
  spilled_iff _ := spilled_run_iff ok
  preferred_iff _ := preferred_run_iff ok
  weighed_iff v := by rw [weights_run ok, weighed_run_iff]
  weights := weights_run ok
  extendedColors := by
    rw [(conclude_ok ok).2]
    rfl

end Run

/-- Three values in each other's way with two registers, a marked one, one that is listed without a
live range, and one that is marked without being listed. -/
def crowd : Procedure where
  live :=
    { values := [⟨4⟩, ⟨1⟩, ⟨3⟩, ⟨1⟩, ⟨0⟩, ⟨2⟩]
      overlaps := fun _ _ => true
      spillable := fun _ => true
      hasRange := fun v => decide (v ≠ ⟨0⟩)
      extent := fun _ => none }
  candidates := fun _ => [⟨7⟩, ⟨5⟩, ⟨7⟩]
  usage := ⟨fun _ => [], fun _ => 0, fun _ _ => .none⟩

def crowded : Round := (((new (Config.default.withSeed 5)).mark ⟨3⟩).mark ⟨0⟩).mark ⟨9⟩

theorem crowd_decided_once :
    ∃ a, (crowded.run crowd 0).1 = .ok a ∧ a.spilled = [⟨3⟩, ⟨4⟩] ∧
      (⟨0⟩ : Value) ∉ a.decisions.keys ∧ (⟨9⟩ : Value) ∈ a.weights.keys ∧
      (crowded.run crowd 0).2.Accounts a crowd.live crowded.marked := by
  have hrun : (crowded.run crowd 0).1.toOption.map Allocation.spilled = some [⟨3⟩, ⟨4⟩] := by
    decide +kernel
  cases hok : (crowded.run crowd 0).1 with
  | error e =>
    rw [hok] at hrun
    cases hrun
  | ok a =>
    rw [hok] at hrun
    have haccounts := decides_live_values_once crowded crowd 0 a hok
    refine ⟨a, rfl, Option.some.inj hrun, ?_, ?_, haccounts⟩
    · intro hmem
      exact absurd ((haccounts.decided_iff ⟨0⟩).mp hmem).2 (by decide)
    · exact (haccounts.weighed_iff ⟨9⟩).mpr (.inr (by decide))

end Round

end RegisterColoring
