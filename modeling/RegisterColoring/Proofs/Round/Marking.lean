import RegisterColoring.Proofs.Round.Failure

/-!
What is advice to a run: weights, spillability and marks have no part in the coloring pass, and the
outcome is where they are looked at.
-/

namespace RegisterColoring

/-!
Weights and spillability are advice. The one is stored before the coloring pass and never looked at
again, the other is looked at when the colors are there; so two runs that differ in nothing else
color alike, draw alike, and decide alike if both succeed. Without a difference in spillability they
fail alike.
-/

/-- Procedures that agree on everything the coloring pass asks for. What the uses of a value cost,
and which values may be spilled, is left open. -/
structure Procedure.DemandsAlike (p q : Procedure) : Prop where
  values : p.live.values = q.live.values
  answers : p.live.AnswersAlike q.live
  candidates : p.candidates = q.candidates

theorem Procedure.DemandsAlike.mem_values_iff {p q : Procedure} (h : p.DemandsAlike q) (v : Value) :
    v ∈ p.live.values ↔ v ∈ q.live.values := by
  rw [h.values]

namespace Round

section Run

variable {r s : Round} {p q : Procedure} {drawn drawn' : UInt64}

/-- The marked values come after the colored ones, and neither depends on what is advised. -/
theorem fates_eq_of_alike (alike : r.Alike s) (demands : p.DemandsAlike q) {m n : FiniteSet Value}
    (marks : ∀ v, v ∈ m ↔ v ∈ n) : r.fates p.live m = s.fates q.live n := by
  have hmarked := markedLive_congr demands.answers demands.mem_values_iff marks
  rw [fates_eq, alike.coloredFates, markedFates, hmarked, fates_eq, markedFates]

theorem run_decidesAlike (alike : (r.run p drawn).2.Alike (s.run q drawn').2)
    (demands : p.DemandsAlike q) (marks : ∀ v, v ∈ r.marked ↔ v ∈ s.marked) {a b : Allocation}
    (ok : (r.run p drawn).1 = .ok a) (ok' : (s.run q drawn').1 = .ok b) : a.DecidesAlike b := by
  have ha := (conclude_ok ok).2
  have hb := (conclude_ok ok').2
  rw [← run_eq_conclude] at ha hb
  rw [ha, hb, fates_eq_of_alike alike demands marks]
  exact alike.allocation_decidesAlike _

end Run

/-- Usage and spillability have no influence on the graph, the colors and the pool. Of two runs that
differ in nothing else and succeed, both decide alike; and the usage alone does not decide whether
they do. -/
theorem advice_leaves_coloring_alone (r s : Round) (p q : Procedure) (seed drawn drawn' : UInt64)
    (config : r.config = s.config) (configured : s.config.seed = some seed)
    (marks : ∀ v, v ∈ r.marked ↔ v ∈ s.marked) (demands : p.DemandsAlike q) :
    (r.run p drawn).2.Alike (s.run q drawn').2 ∧
      (∀ a b, (r.run p drawn).1 = .ok a → (s.run q drawn').1 = .ok b → a.DecidesAlike b) ∧
      (p.live.spillable = q.live.spillable →
        ((∃ a, (r.run p drawn).1 = .ok a) ↔ ∃ b, (s.run q drawn').1 = .ok b) ∧
        ∀ e, (r.run p drawn).1 = .error e ↔ (s.run q drawn').1 = .error e) := by
  have hseed : r.config.seed.getD drawn = s.config.seed.getD drawn' := by
    rw [config, configured]
    rfl
  have hload : (r.load p drawn).Alike (s.load q drawn') :=
    load_alike_of_nodes config hseed demands.candidates demands.answers
      (demands.answers.nodes demands.mem_values_iff marks)
  have alike : (r.run p drawn).2.Alike (s.run q drawn').2 :=
    hload.conclude_round demands.candidates r.marked s.marked
  refine ⟨alike, fun a b ok ok' => run_decidesAlike alike demands marks ok ok', ?_⟩
  intro spillable
  have herror : error? (r.run p drawn).1 = error? (s.run q drawn').1 :=
    hload.error?_conclude load_consistent load_consistent demands.candidates spillable
      (markedLive_congr demands.answers demands.mem_values_iff marks)
  constructor
  · rw [← error?_eq_none_iff, herror, error?_eq_none_iff]
  · intro e
    rw [← error?_eq_some_iff, herror, error?_eq_some_iff]

/-- The crowd when every value is used in a loop and one that gets a register must not be
spilled. -/
def pressingCrowd : Procedure :=
  { crowd with
    live := { crowd.live with spillable := fun v => decide (v ≠ ⟨1⟩) }
    usage := ⟨fun v => [⟨v.id⟩, ⟨7⟩], fun _ => 2, fun _ _ => ⟨true, false⟩⟩ }

theorem crowd_pressed_decides_alike :
    ∃ a b, (crowded.run crowd 0).1 = .ok a ∧ (crowded.run pressingCrowd 1).1 = .ok b ∧
      a.spilled = [⟨3⟩, ⟨4⟩] ∧ a.DecidesAlike b ∧
      ∃ c, (crowded.run { crowd with usage := pressingCrowd.usage } 2).1 = .ok c := by
  have hcrowd : (crowded.run crowd 0).1.toOption.map Allocation.spilled = some [⟨3⟩, ⟨4⟩] := by
    decide +kernel
  have hpressed : error? (crowded.run pressingCrowd 1).1 = none := by decide +kernel
  obtain ⟨_, halike, _⟩ := advice_leaves_coloring_alone crowded crowded crowd pressingCrowd 5 0 1
    rfl rfl (fun _ => .rfl) ⟨rfl, ⟨rfl, rfl, rfl⟩, rfl⟩
  obtain ⟨_, _, husage⟩ := advice_leaves_coloring_alone crowded crowded crowd
    { crowd with usage := pressingCrowd.usage } 5 0 2 rfl rfl (fun _ => .rfl)
    ⟨rfl, ⟨rfl, rfl, rfl⟩, rfl⟩
  obtain ⟨a, ok, ha⟩ := exists_ok_of_spilled hcrowd
  obtain ⟨b, ok'⟩ := error?_eq_none_iff.mp hpressed
  exact ⟨a, b, ok, ok', ha, halike a b ok ok', (husage rfl).1.mp ⟨a, ok⟩⟩

end Round

/-!
Marking a value is deleting it from the function. Marks keep values out of the graph, and nothing
before the outcome looks at them again, so the run with the marks and the run without the values
color alike. The outcome adds the marked values then: a weight for each, and a spill for each that
needs a location, unless one of them must not be spilled.
-/

/-- The procedure without the values that are gone: it does not list them any more. -/
def Procedure.without (p : Procedure) (gone : FiniteSet Value) : Procedure :=
  p.withValues (p.live.values.filter fun v => decide (v ∉ gone))

namespace Liveness

variable {p : Procedure} {gone unmarked : FiniteSet Value}

theorem isLive_without {v : Value} :
    (p.without gone).live.IsLive v ↔ p.live.IsLive v ∧ v ∉ gone := by
  simp only [IsLive, Procedure.without, Procedure.withValues, List.mem_filter, decide_eq_true_eq]
  exact and_right_comm

theorem nodes_without (none : ∀ v, v ∉ unmarked) :
    (p.without gone).live.nodes unmarked = p.live.nodes gone := by
  apply nodes_eq_of_mem_iff
  intro v
  have hlive : (p.without gone).live.IsLive v ↔ p.live.IsLive v ∧ v ∉ gone := isLive_without
  rw [← and_assoc, ← and_assoc]
  exact (and_iff_left (none v)).trans hlive

theorem refused_eq_empty_iff {live : Liveness} {marked : FiniteSet Value} :
    live.refused marked = ∅ ↔ ∀ v ∈ marked, live.IsLive v → live.spillable v = true := by
  rw [Set.eq_empty_iff_forall_notMem]
  constructor
  · intro h v hv hlive
    by_contra hspill
    exact h v ⟨hv, hlive.1, hlive.2, Bool.not_eq_true _ ▸ hspill⟩
  · rintro h v ⟨hv, hlisted, hrange, hspill⟩
    rw [h v hv ⟨hlisted, hrange⟩] at hspill
    cases hspill

end Liveness

/-- The allocation `a` is `b` with the marked values added, which `b` knows nothing of: a spill for
each that needs a location, and a weight for each. -/
structure Allocation.AddsMarked (a b : Allocation) (p : Procedure) (marked : FiniteSet Value) :
    Prop where
  decision_iff : ∀ v d, a.decision? v = some d ↔
    b.decision? v = some d ∨ (v ∈ marked ∧ p.live.IsLive v ∧ d = .spill)
  undecided : ∀ v ∈ marked, v ∉ b.decisions.keys
  weight_iff : ∀ v w, a.weights.get? v = some w ↔
    b.weights.get? v = some w ∨ (v ∈ marked ∧ w = p.usage.weight v)
  unweighed : ∀ v ∈ marked, v ∉ b.weights.keys
  preferences : a.preferences = b.preferences
  seed : a.seed = b.seed
  extendedColors : a.extendedColors = b.extendedColors

namespace Round

/-- A marked value has no preferences, so they come from the colors alone. -/
theorem preferences_allocation (r : Round) (live : Liveness) (marked : FiniteSet Value) :
    (r.allocation (r.fates live marked)).preferences =
      (r.allocation r.coloredFates).preferences := by
  have hmarked : ((markedFates live marked).filterMap
      fun f => f.2.preference?.map fun ps => (f.1, ps)) = [] := by
    rw [List.filterMap_eq_nil_iff]
    intro f hf
    rw [(mem_markedFates.mp hf).2]
    rfl
  simp only [allocation, fates_eq, List.filterMap_append, hmarked, List.append_nil]

section Run

variable {r s : Round} {p : Procedure} {drawn drawn' : UInt64}

theorem refused_without (unmarked : ∀ v, v ∉ s.marked) :
    (p.without r.marked).live.refused s.marked = ∅ := by
  apply Liveness.refused_eq_empty_iff.mpr
  intro v hv
  exact absurd hv (unmarked v)

theorem run_alike_without (config : r.config = s.config)
    (seed : r.config.seed.getD drawn = s.config.seed.getD drawn') (unmarked : ∀ v, v ∉ s.marked) :
    (r.run p drawn).2.Alike (s.run (p.without r.marked) drawn').2 := by
  have hload : (r.load p drawn).Alike (s.load (p.without r.marked) drawn') :=
    load_alike_of_nodes (q := p.without r.marked) config seed rfl ⟨rfl, rfl, rfl⟩
      (Liveness.nodes_without unmarked).symm
  exact hload.conclude_round (p := p) (q := p.without r.marked) rfl r.marked s.marked

section Compare

variable (alike : (r.run p drawn).2.Alike (s.run (p.without r.marked) drawn').2)

include alike

theorem starved_without : (r.run p drawn).2.starved p =
    (s.run (p.without r.marked) drawn').2.starved (p.without r.marked) := alike.starved rfl

theorem stranded_without : (r.run p drawn).2.stranded p.live =
    (s.run (p.without r.marked) drawn').2.stranded (p.without r.marked).live := alike.stranded rfl

/-- The errors of the run without the values come before any that a mark can cause. -/
theorem run_error_of_without (unmarked : ∀ v, v ∉ s.marked) {e : AllocError}
    (failed : (s.run (p.without r.marked) drawn').1 = .error e) : (r.run p drawn).1 = .error e := by
  rw [run_error_iff, refused_without unmarked] at failed
  rw [run_error_iff, starved_without alike, stranded_without alike]
  rcases failed with hnode | ⟨hnone, v, he, hv | ⟨_, hrefused⟩⟩
  · exact .inl hnode
  · exact .inr ⟨hnone, v, he, .inl hv⟩
  · exact absurd hrefused.1 (Set.notMem_empty v)

theorem run_ok_iff_of_without {b : Allocation}
    (ok : (s.run (p.without r.marked) drawn').1 = .ok b) :
    (∃ a, (r.run p drawn).1 = .ok a) ↔
      ∀ v ∈ r.marked, p.live.IsLive v → p.live.spillable v = true := by
  obtain ⟨hnone, hkept, _⟩ := run_ok_iff.mp ⟨b, ok⟩
  rw [run_ok_iff, starved_without alike, stranded_without alike, ← Liveness.refused_eq_empty_iff]
  exact ⟨fun h => h.2.2, fun h => ⟨hnone, hkept, h⟩⟩

variable {a b : Allocation} (ok : (r.run p drawn).1 = .ok a)
  (ok' : (s.run (p.without r.marked) drawn').1 = .ok b)

include ok ok'

theorem decision_iff_of_without (unmarked : ∀ v, v ∉ s.marked) {v : Value} {d : Decision} :
    a.decision? v = some d ↔
      b.decision? v = some d ∨ (v ∈ r.marked ∧ p.live.IsLive v ∧ d = .spill) := by
  have hnone : v ∉ markedLive (p.without r.marked).live s.marked := by
    intro hv
    exact unmarked v (mem_markedLive.mp hv).1
  rw [decision?_run ok, decision?_run ok', mem_markedLive_iff_isLive]
  simp only [alike.colors, alike.fateOf, hnone, false_and, or_false, and_assoc]

theorem weight_iff_of_without (unmarked : ∀ v, v ∉ s.marked) {v : Value} {w : Weight} :
    a.weights.get? v = some w ↔
      b.weights.get? v = some w ∨ (v ∈ r.marked ∧ w = p.usage.weight v) := by
  rw [weights_run_iff ok, weights_run_iff ok', ← alike.graph.nodes, or_iff_left (unmarked v),
    or_and_right]
  rfl

theorem addsMarked_of_ok (unmarked : ∀ v, v ∉ s.marked) : a.AddsMarked b p r.marked := by
  have ha := (conclude_ok ok).2
  have hb := (conclude_ok ok').2
  rw [← run_eq_conclude] at ha hb
  refine ⟨fun v d => decision_iff_of_without alike ok ok' unmarked, ?_,
    fun v w => weight_iff_of_without alike ok ok' unmarked, ?_, ?_, ?_, ?_⟩
  · intro v hv hdecided
    exact (Liveness.isLive_without.mp ((decided_run_iff ok').mp hdecided)).2 hv
  · intro v hv hweighed
    rw [weights_run ok', weighed_run_iff, or_iff_left (unmarked v), node_run_iff,
      Liveness.isLive_without] at hweighed
    exact hweighed.1.2 hv
  · rw [ha, hb, preferences_allocation, preferences_allocation, allocation, alike.coloredFates]
    rfl
  · rw [ha, hb]
    exact alike.seed
  · rw [ha, hb]
    exact congrArg List.length alike.pool

end Compare

end Run

/-- A run with marks colors as the run without the marked values does. It succeeds if that run does
and the marked values may be spilled, and adds their weights and spills to its allocation. -/
theorem marking_is_deletion (r s : Round) (p : Procedure) (seed drawn drawn' : UInt64)
    (config : r.config = s.config) (configured : s.config.seed = some seed)
    (unmarked : ∀ v, v ∉ s.marked) :
    (r.run p drawn).2.Alike (s.run (p.without r.marked) drawn').2 ∧
      (∀ e, (s.run (p.without r.marked) drawn').1 = .error e → (r.run p drawn).1 = .error e) ∧
      ∀ b, (s.run (p.without r.marked) drawn').1 = .ok b →
        ((∃ a, (r.run p drawn).1 = .ok a) ↔
          ∀ v ∈ r.marked, p.live.IsLive v → p.live.spillable v = true) ∧
        ∀ a, (r.run p drawn).1 = .ok a → a.AddsMarked b p r.marked := by
  have hseed : r.config.seed.getD drawn = s.config.seed.getD drawn' := by
    rw [config, configured]
    rfl
  have alike : (r.run p drawn).2.Alike (s.run (p.without r.marked) drawn').2 :=
    run_alike_without config hseed unmarked
  refine ⟨alike, fun e failed => run_error_of_without alike unmarked failed, ?_⟩
  intro b ok'
  exact ⟨run_ok_iff_of_without alike ok', fun a ok => addsMarked_of_ok alike ok ok' unmarked⟩

theorem crowd_marking_is_deletion :
    ∃ a b, (crowded.run crowd 0).1 = .ok a ∧
      ((new (Config.default.withSeed 5)).run (crowd.without crowded.marked) 1).1 = .ok b ∧
      a.spilled = [⟨3⟩, ⟨4⟩] ∧ b.spilled = [⟨4⟩] ∧ a.AddsMarked b crowd crowded.marked := by
  have hmarked : (crowded.run crowd 0).1.toOption.map Allocation.spilled = some [⟨3⟩, ⟨4⟩] := by
    decide +kernel
  have hdeleted : ((new (Config.default.withSeed 5)).run (crowd.without crowded.marked)
      1).1.toOption.map Allocation.spilled = some [⟨4⟩] := by
    decide +kernel
  obtain ⟨_, _, hadds⟩ := marking_is_deletion crowded (new (Config.default.withSeed 5)) crowd 5 0 1
    rfl rfl FiniteSet.not_mem_empty
  obtain ⟨a, ok, ha⟩ := exists_ok_of_spilled hmarked
  obtain ⟨b, ok', hb⟩ := exists_ok_of_spilled hdeleted
  exact ⟨a, b, ok, ok', ha, hb, (hadds b ok').2 a ok⟩

end Round

end RegisterColoring
