import RegisterColoring.Proofs.Round.Failure

/-!
Lists that count as sets. Values, candidates and marks may be listed in any order and any number of
times: nodes and candidates are sorted and freed of repetitions before anything is indexed or drawn,
and the rest only asks whether something is listed. So a run depends on the elements of these lists
alone.
-/

namespace RegisterColoring

/-- Procedures whose lists have the same elements and that agree otherwise. -/
structure Procedure.SameSets (p q : Procedure) : Prop where
  values : ∀ v, v ∈ p.live.values ↔ v ∈ q.live.values
  answers : p.live.AnswersAlike q.live
  spillable : p.live.spillable = q.live.spillable
  candidates : ∀ v reg, reg ∈ p.candidates v ↔ reg ∈ q.candidates v
  usage : p.usage = q.usage

namespace Procedure.SameSets

variable {p q : Procedure}

theorem refl (p : Procedure) : p.SameSets p :=
  ⟨fun _ => .rfl, .refl _, rfl, fun _ _ => .rfl, rfl⟩

theorem sorted_candidates (h : p.SameSets q) (v : Value) :
    (FiniteSet.ofList (p.candidates v)).sorted = (FiniteSet.ofList (q.candidates v)).sorted := by
  apply FiniteSet.sorted_eq_of_mem_iff
  intro reg
  rw [FiniteSet.mem_ofList, FiniteSet.mem_ofList, h.candidates]

theorem isEmpty_candidates (h : p.SameSets q) (v : Value) :
    (p.candidates v).isEmpty = (q.candidates v).isEmpty := by
  rw [Bool.eq_iff_iff, List.isEmpty_iff, List.isEmpty_iff, List.eq_nil_iff_forall_not_mem,
    List.eq_nil_iff_forall_not_mem]
  exact forall_congr' fun reg => not_congr (h.candidates v reg)

end Procedure.SameSets

namespace Round

variable {p q : Procedure} {m n : FiniteSet Value}

/-- Nothing but the configuration and the number of marks is left when a run has started. -/
theorem start_eq (r : Round) (drawn : UInt64) :
    r.start drawn =
      { new r.config with
        seed := r.config.seed.getD drawn
        generator := .ofSeed (r.config.seed.getD drawn)
        log := [.roundStarted (r.config.seed.getD drawn) r.marked.size] } := rfl

theorem buildEdges_congr (r : Round) {live live' : Liveness} (answers : live.AnswersAlike live')
    (vs : List Value) : r.buildEdges live vs = r.buildEdges live' vs := by
  simp only [buildEdges, buildPairwise, buildSweep, answers.pairwise, answers.sweep,
    answers.extents?]

theorem build_congr (r : Round) (same : p.SameSets q) (marks : ∀ v, v ∈ m ↔ v ∈ n) :
    r.build p.live m = r.build q.live n := by
  rw [build, same.answers.nodes same.values marks, buildEdges_congr _ same.answers, build]

theorem weigh_congr (r : Round) (usage : Usage) (marks : ∀ v, v ∈ m ↔ v ∈ n) :
    r.weigh usage m = r.weigh usage n := by
  rw [weigh, weigh, FiniteSet.sorted_eq_of_mem_iff marks]

theorem storeCandidates_congr (r : Round) (same : p.SameSets q) :
    r.storeCandidates p.candidates = r.storeCandidates q.candidates := by
  simp only [storeCandidates, same.sorted_candidates, same.isEmpty_candidates]

theorem candidateFault?_congr (r : Round) (same : p.SameSets q) :
    r.candidateFault? p.candidates = r.candidateFault? q.candidates := by
  simp only [candidateFault?, starved?, same.isEmpty_candidates]

theorem resolve_congr (r : Round) (same : p.SameSets q) (marks : ∀ v, v ∈ m ↔ v ∈ n) :
    r.resolve p.live m = r.resolve q.live n := by
  have hmarked := markedLive_congr same.answers same.values marks
  have hfailure := Liveness.failure?_congr same.spillable
  simp only [resolve, fates, noteSpills, hmarked, hfailure]

theorem conclude_congr (r : Round) (same : p.SameSets q) (marks : ∀ v, v ∈ m ↔ v ∈ n) :
    r.conclude p m = r.conclude q n := by
  rw [conclude, candidateFault?_congr r same, resolve_congr _ same marks, conclude]

section Run

variable {r s : Round} {drawn drawn' : UInt64} (config : r.config = s.config)
  (seed : r.config.seed.getD drawn = s.config.seed.getD drawn')
  (marks : ∀ v, v ∈ r.marked ↔ v ∈ s.marked) (same : p.SameSets q)

include config seed marks same

theorem load_congr : r.load p drawn = s.load q drawn' := by
  have hstart : r.start drawn = s.start drawn' := by
    rw [start_eq, start_eq, seed, config, FiniteSet.size_eq_of_mem_iff marks]
  have hprepare : r.prepare p drawn = s.prepare q drawn' := by
    rw [prepare, hstart, build_congr _ same marks, same.usage, weigh_congr _ _ marks, prepare]
  rw [load, hprepare, storeCandidates_congr _ same, load]

/-- Two rounds that are configured, seeded and marked alike run alike, whatever else they hold. -/
theorem run_congr : r.run p drawn = s.run q drawn' := by
  rw [run_eq_conclude, load_congr config seed marks same, conclude_congr _ same marks,
    run_eq_conclude]

end Run

theorem mem_marked_foldl_mark {r : Round} {vs : List Value} {v : Value} :
    v ∈ (vs.foldl mark r).marked ↔ v ∈ vs ∨ v ∈ r.marked := by
  induction vs generalizing r with
  | nil => simp
  | cons w vs ih =>
    rw [List.foldl_cons, ih, mark, FiniteSet.mem_insert, List.mem_cons, or_left_comm, or_assoc]

theorem config_foldl_mark (r : Round) (vs : List Value) : (vs.foldl mark r).config = r.config := by
  induction vs generalizing r with
  | nil => rfl
  | cons v vs ih => exact ih (r.mark v)

/-- Live values, candidates and marks may be listed in any order and repeated: the run is the same,
and so is the round that it leaves behind. -/
theorem lists_count_as_sets (r s : Round) (p q : Procedure) (vs ws : List Value)
    (seed drawn drawn' : UInt64) (config : r.config = s.config)
    (configured : s.config.seed = some seed) (earlier : ∀ v, v ∈ r.marked ↔ v ∈ s.marked)
    (marks : ∀ v, v ∈ vs ↔ v ∈ ws) (same : p.SameSets q) :
    (vs.foldl mark r).run p drawn = (ws.foldl mark s).run q drawn' := by
  apply run_congr
  · rw [config_foldl_mark, config_foldl_mark, config]
  · rw [config_foldl_mark, config_foldl_mark, config, configured]
    rfl
  · intro v
    rw [mem_marked_foldl_mark, mem_marked_foldl_mark, marks, earlier]
  · exact same

/-- The crowd, listed in another order and with other repetitions. -/
def shuffledCrowd : Procedure :=
  { crowd with
    live := { crowd.live with values := [⟨0⟩, ⟨2⟩, ⟨3⟩, ⟨4⟩, ⟨3⟩, ⟨1⟩] }
    candidates := fun _ => [⟨5⟩, ⟨5⟩, ⟨7⟩, ⟨5⟩] }

theorem crowd_sameSets_shuffled : crowd.SameSets shuffledCrowd where
  values v := by
    simp only [crowd, shuffledCrowd, List.mem_cons, List.not_mem_nil]
    tauto
  answers := ⟨rfl, rfl, rfl⟩
  spillable := rfl
  candidates _ reg := by
    simp only [crowd, shuffledCrowd, List.mem_cons, List.not_mem_nil]
    tauto
  usage := rfl

theorem crowd_lists_count_as_sets :
    let blank := new (Config.default.withSeed 5)
    ([⟨3⟩, ⟨0⟩, ⟨9⟩].foldl mark blank).run crowd 0 =
        ([⟨9⟩, ⟨3⟩, ⟨0⟩, ⟨3⟩].foldl mark blank).run shuffledCrowd 4 ∧
      (([⟨3⟩, ⟨0⟩, ⟨9⟩].foldl mark blank).run crowd 0).1.toOption.map Allocation.spilled =
        some [⟨3⟩, ⟨4⟩] := by
  have hmarks : ∀ v : Value, v ∈ ([⟨3⟩, ⟨0⟩, ⟨9⟩] : List Value) ↔ v ∈ [⟨9⟩, ⟨3⟩, ⟨0⟩, ⟨3⟩] := by
    intro v
    simp only [List.mem_cons, List.not_mem_nil]
    tauto
  constructor
  · exact lists_count_as_sets _ _ crowd shuffledCrowd _ _ 5 0 4 rfl rfl (fun _ => .rfl) hmarks
      crowd_sameSets_shuffled
  · decide +kernel

end Round

/-!
One round serves for many runs. A run replaces all that the run before it has left and takes the
marks away, however it ends. So of everything that came before, only the configuration and the
values marked since the last run have a part in the next one.
-/

namespace Round

theorem config_run (r : Round) (p : Procedure) (drawn : UInt64) :
    (r.run p drawn).2.config = r.config :=
  ((r.load_sameProblem p drawn).trans (r.run_sameProblem p drawn)).config

theorem marked_run (r : Round) (p : Procedure) (drawn : UInt64) :
    (r.run p drawn).2.marked = ∅ :=
  ((r.load_sameProblem p drawn).trans (r.run_sameProblem p drawn)).marked

/-- The rounds that marks and runs lead to from a new one, each with the values that were marked
since its last run. A run counts however it ends. -/
inductive Reachable (config : Config) : List Value → Round → Prop where
  | new : Reachable config [] (new config)
  | mark {since : List Value} {r : Round} (reached : Reachable config since r) (v : Value) :
      Reachable config (v :: since) (r.mark v)
  | run {since : List Value} {r : Round} (reached : Reachable config since r) (p : Procedure)
      (drawn : UInt64) : Reachable config [] (r.run p drawn).2

namespace Reachable

variable {config : Config} {since : List Value} {r : Round}

theorem config_eq (reached : Reachable config since r) : r.config = config := by
  induction reached with
  | new => rfl
  | mark _ v ih => exact ih
  | run _ p drawn ih => rw [config_run, ih]

theorem mem_marked_iff (reached : Reachable config since r) (v : Value) :
    v ∈ r.marked ↔ v ∈ since := by
  induction reached with
  | new => exact iff_of_false (FiniteSet.not_mem_empty v) List.not_mem_nil
  | mark _ w ih => rw [Round.mark, FiniteSet.mem_insert, List.mem_cons, ih]
  | run _ p drawn _ =>
    rw [marked_run]
    exact iff_of_false (FiniteSet.not_mem_empty v) List.not_mem_nil

/-- Rounds with one configured seed and the same values marked since their last run run alike,
however they came about. -/
theorem run_eq {since' : List Value} {s : Round} {seed : UInt64}
    (configured : config.seed = some seed) (reached : Reachable config since r)
    (reached' : Reachable config since' s) (same : ∀ v, v ∈ since ↔ v ∈ since') (p : Procedure)
    (drawn drawn' : UInt64) : r.run p drawn = s.run p drawn' := by
  have hconfig : r.config = s.config := reached.config_eq.trans reached'.config_eq.symm
  apply run_congr hconfig
  · rw [reached.config_eq, reached'.config_eq, configured]
    rfl
  · intro v
    rw [reached.mem_marked_iff, reached'.mem_marked_iff, same]
  · exact .refl p

/-- A new round on which the given values are marked. -/
theorem marking (config : Config) (marks : List Value) :
    Reachable config marks.reverse (marks.foldl Round.mark (Round.new config)) := by
  induction marks using List.reverseRecOn with
  | nil => exact .new
  | append_singleton marks v ih =>
    rw [List.foldl_append, List.reverse_append]
    exact ih.mark v

end Reachable

/-- A round with a configured seed runs as a new one with the same marks does, whatever was done
with it before, and each run takes the marks away. -/
theorem run_forgets_history (config : Config) (seed : UInt64) (configured : config.seed = some seed)
    (since : List Value) (r : Round) (reached : Reachable config since r) (marks : List Value)
    (same : ∀ v, v ∈ marks ↔ v ∈ since) (p : Procedure) (drawn drawn' : UInt64) :
    r.run p drawn = (marks.foldl mark (new config)).run p drawn' ∧
      (r.run p drawn).2.marked = ∅ ∧
      ∀ (q : Procedure) (d d' : UInt64), (r.run p drawn).2.run q d = (new config).run q d' := by
  have hsince : ∀ v, v ∈ since ↔ v ∈ marks.reverse := by
    intro v
    rw [List.mem_reverse, same]
  refine ⟨reached.run_eq configured (.marking config marks) hsince p drawn drawn',
    marked_run r p drawn, ?_⟩
  intro q d d'
  exact (reached.run p drawn).run_eq configured .new (fun _ => .rfl) q d d'

/-- A run that a node without candidates ends. -/
def starvedRun : Except AllocError Allocation × Round :=
  ((new (Config.default.withSeed 5)).mark ⟨1⟩).run barren 0

/-- A run of the same round that a value ends which must not be spilled. -/
def strandedRun : Except AllocError Allocation × Round := (starvedRun.2.mark ⟨0⟩).run scarce 1

/-- The same round after a run that succeeds, with one value marked twice. -/
def worn : Round := (((strandedRun.2.run crowd 2).2.mark ⟨3⟩).mark ⟨9⟩).mark ⟨3⟩

theorem reachable_worn : Reachable (Config.default.withSeed 5) [⟨3⟩, ⟨9⟩, ⟨3⟩] worn :=
  (((((((Reachable.new.mark _).run barren 0).mark _).run scarce 1).run crowd 2).mark _).mark _).mark _

theorem worn_run_forgets_history :
    error? starvedRun.1 = some (.noCandidates ⟨4⟩) ∧
      error? strandedRun.1 = some (.unspillable ⟨4⟩) ∧
      (worn.run crowd 4).1.toOption.map Allocation.spilled = some [⟨3⟩, ⟨4⟩] ∧
      worn.run crowd 4 =
        ([⟨9⟩, ⟨3⟩].foldl mark (new (Config.default.withSeed 5))).run crowd 6 ∧
      (worn.run crowd 4).2.run scarce 7 = (new (Config.default.withSeed 5)).run scarce 8 := by
  have hsame : ∀ v : Value, v ∈ [⟨9⟩, ⟨3⟩] ↔ v ∈ ([⟨3⟩, ⟨9⟩, ⟨3⟩] : List Value) := by
    intro v
    simp only [List.mem_cons, List.not_mem_nil]
    tauto
  obtain ⟨hrun, _, hnext⟩ := run_forgets_history (Config.default.withSeed 5) 5 rfl _ worn
    reachable_worn [⟨9⟩, ⟨3⟩] hsame crowd 4 6
  refine ⟨by decide +kernel, by decide +kernel, ?_, hrun, hnext scarce 7 8⟩
  rw [hrun]
  decide +kernel

end Round

end RegisterColoring
