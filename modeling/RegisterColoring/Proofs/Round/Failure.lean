import RegisterColoring.Proofs.Collection
import RegisterColoring.Proofs.Round.Alike

/-!
The check finds nothing wrong with a run. The graph is consistent whatever the overlaps and extents
say, and no edge joins two values in one register, so a run with the check and one without it are
the same.
-/

namespace RegisterColoring

/-- The errors that only the check reports. -/
def AllocError.isFault : AllocError → Bool
  | missingArc _ _ => true
  | selfLoop _ => true
  | wrongDegree _ _ _ => true
  | sharedRegister _ _ _ => true
  | unspillable _ => false
  | noCandidates _ => false

namespace Round

theorem RegistersApart.edgeFault?_eq_none {r : Round} (h : r.RegistersApart)
    (consistent : r.graph.Consistent) {e : Edge} (he : e ∈ r.graph.edges) :
    r.edgeFault? e = none := by
  have hedge : r.graph.interferes e.low e.high = true :=
    (Graph.interferes_low_high (consistent.canonical e he)).mpr he
  unfold edgeFault?
  cases hlow : r.resolved? e.low with
  | none => rfl
  | some a =>
    cases hhigh : r.resolved? e.high with
    | none => rfl
    | some b =>
      have hne : a ≠ b := by
        rintro rfl
        exact h.apart _ _ hedge a hlow hhigh
      exact if_neg hne

theorem RegistersApart.fault?_eq_none {r : Round} (h : r.RegistersApart)
    (consistent : r.graph.Consistent) : r.fault? = none := by
  have hcoloring : r.coloringFault? = none := by
    rw [coloringFault?, List.findSome?_eq_none_iff]
    intro e he
    exact h.edgeFault?_eq_none consistent (FiniteSet.mem_sorted.mp he)
  rw [fault?, consistent.fault?_eq_none, hcoloring]
  rfl

theorem fault?_colorGraph {r : Round} (consistent : r.graph.Consistent)
    (uncolored : r.Uncolored) : r.colorGraph.fault? = none := by
  apply (registersApart_colorGraph consistent uncolored).fault?_eq_none
  rw [r.colorGraph_sameProblem.graph]
  exact consistent

/-- Nothing is asked of the procedure: not of its overlaps, its extents or its candidates. -/
theorem fault?_colorGraph_load (r : Round) (p : Procedure) (drawn : UInt64) :
    (r.load p drawn).colorGraph.fault? = none :=
  fault?_colorGraph load_consistent load_uncolored

theorem checked?_eq_none {r : Round} (sound : r.fault? = none) : r.checked? = none := by
  rw [checked?, sound, ite_self]

theorem failure?_isFault {live : Liveness} {v : Value} {f : Fate} {e : AllocError}
    (h : live.failure? v f = some e) : e.isFault = false := by
  cases f with
  | assigned => cases h
  | unresolved =>
    obtain rfl := Option.some.inj h
    rfl
  | spilled =>
    rw [Liveness.failure?] at h
    split at h
    · cases h
    · obtain rfl := Option.some.inj h
      rfl

theorem run_error_isFault {r : Round} {p : Procedure} {drawn : UInt64} {e : AllocError}
    (h : (r.run p drawn).1 = .error e) : e.isFault = false := by
  have hends := r.concludes_run p drawn
  generalize r.run p drawn = outcome at h hends
  obtain ⟨result, s⟩ := outcome
  obtain rfl : result = .error e := h
  cases hends with
  | starved _ starved =>
    obtain ⟨v, _, rfl⟩ := Option.map_eq_some_iff.mp starved
    rfl
  | faulty _ reached faulty =>
    rw [checked?_eq_none (r.fault?_colorGraph_load p drawn)] at faulty
    cases faulty
  | failed _ reached sound failed =>
    obtain ⟨f, _, hf⟩ := List.exists_of_findSome?_eq_some failed
    exact failure?_isFault hf

def withVerify (r : Round) (verify : Bool) : Round :=
  { r with config := r.config.withVerify verify }

section WithVerify

variable (r : Round) (verify : Bool)

theorem buildEdges_withVerify (live : Liveness) (vs : List Value) :
    (r.withVerify verify).buildEdges live vs = (r.buildEdges live vs).withVerify verify := by
  have hbuild : (r.withVerify verify).config.build = r.config.build := rfl
  unfold buildEdges
  rw [hbuild]
  cases r.config.build with
  | pairwise => rfl
  | sweep => cases live.extents? vs <;> rfl

theorem build_withVerify (live : Liveness) (marked : FiniteSet Value) :
    (r.withVerify verify).build live marked = (r.build live marked).withVerify verify :=
  congrArg noteGraph (buildEdges_withVerify
    { r with graph := r.graph.addNodes (live.nodes marked) } verify live (live.nodes marked))

theorem load_withVerify (p : Procedure) (drawn : UInt64) :
    (r.withVerify verify).load p drawn = (r.load p drawn).withVerify verify := by
  have hbuilt : ((r.withVerify verify).start drawn).build p.live (r.withVerify verify).marked =
      ((r.start drawn).build p.live r.marked).withVerify verify :=
    (r.start drawn).build_withVerify verify p.live r.marked
  unfold load prepare
  dsimp only
  rw [hbuilt]
  rfl

theorem selectColor_withVerify (v : Value) :
    (r.withVerify verify).selectColor v =
      ((r.selectColor v).1, (r.selectColor v).2.withVerify verify) := by
  have hgenerator : (r.withVerify verify).generator = r.generator := rfl
  have hindices : (r.withVerify verify).freeIndices v = r.freeIndices v := rfl
  have hextended : (r.withVerify verify).freeExtended v = r.freeExtended v := rfl
  unfold selectColor
  rw [hgenerator, hindices, hextended]
  cases r.generator.pick? (r.freeIndices v) with
  | some choice => rfl
  | none => cases r.generator.pick? (r.freeExtended v) <;> rfl

theorem colorNode_withVerify (v : Value) :
    (r.withVerify verify).colorNode v = (r.colorNode v).withVerify verify := by
  unfold colorNode
  rw [selectColor_withVerify]
  rfl

theorem colorAll_withVerify (vs : List Value) :
    (r.withVerify verify).colorAll vs = (r.colorAll vs).withVerify verify := by
  induction vs generalizing r with
  | nil => rfl
  | cons v vs ih => rw [colorAll_cons, colorAll_cons, colorNode_withVerify, ih]

theorem colorGraph_withVerify :
    (r.withVerify verify).colorGraph = r.colorGraph.withVerify verify := by
  have hcolored := r.colorAll_withVerify verify r.graph.byDegree
  unfold colorGraph
  rw [show (r.withVerify verify).graph = r.graph from rfl, hcolored]
  rfl

theorem resolve_withVerify (live : Liveness) (marked : FiniteSet Value) :
    (r.withVerify verify).resolve live marked =
      ((r.resolve live marked).1, (r.resolve live marked).2.withVerify verify) := by
  have hfates : (r.withVerify verify).fates live marked = r.fates live marked := rfl
  unfold resolve
  rw [hfates]
  dsimp only
  cases (r.fates live marked).findSome? fun f => live.failure? f.1 f.2 <;> rfl

/-- Whether the round is checked makes no difference to what a run stores. -/
theorem run_withVerify (p : Procedure) (drawn : UInt64) :
    (r.withVerify verify).run p drawn =
      ((r.run p drawn).1, (r.run p drawn).2.withVerify verify) := by
  have hsound := r.fault?_colorGraph_load p drawn
  have hchecked : (r.load p drawn).colorGraph.checked? = none := checked?_eq_none hsound
  have hchecked' : ((r.load p drawn).colorGraph.withVerify verify).checked? = none :=
    checked?_eq_none hsound
  have hcandidates : ((r.load p drawn).withVerify verify).candidateFault? p.candidates =
      (r.load p drawn).candidateFault? p.candidates := rfl
  unfold run
  rw [load_withVerify]
  dsimp only
  rw [hcandidates, colorGraph_withVerify, hchecked, hchecked']
  cases (r.load p drawn).candidateFault? p.candidates with
  | some e => rfl
  | none => exact (r.load p drawn).colorGraph.resolve_withVerify verify p.live r.marked

end WithVerify

/-- No run fails its own check, so checking makes no difference. The round that the check is asked
about is the loaded one after its coloring pass. -/
theorem check_finds_nothing (r : Round) (p : Procedure) (drawn : UInt64) :
    (r.load p drawn).colorGraph.fault? = none ∧
      (∀ e, (r.run p drawn).1 = .error e → e.isFault = false) ∧
      (r.withVerify true).run p drawn =
        (((r.withVerify false).run p drawn).1,
          ((r.withVerify false).run p drawn).2.withVerify true) := by
  refine ⟨r.fault?_colorGraph_load p drawn, fun e h => run_error_isFault h, ?_⟩
  rw [run_withVerify, run_withVerify]
  rfl

/-- Overlaps that depend on who is asked first, and extents that end before they start. -/
def crooked : Procedure where
  live :=
    { values := [⟨3⟩, ⟨0⟩, ⟨2⟩, ⟨1⟩, ⟨0⟩]
      overlaps := fun u v => decide ((u, v) ∈ [(⟨1⟩, ⟨3⟩), (⟨1⟩, ⟨0⟩), (⟨2⟩, ⟨2⟩), (⟨0⟩, ⟨3⟩)])
      spillable := fun v => decide (v ≠ ⟨3⟩)
      hasRange := fun _ => true
      extent := fun v => [some ⟨5, 2⟩, some ⟨0, 9⟩, some ⟨2, 2⟩, some ⟨3, 4⟩][v.id.toNat]?.join }
  candidates := fun _ => [⟨7⟩]
  usage := ⟨fun _ => [], fun _ => 0, fun _ _ => .none⟩

theorem crooked_check_finds_nothing :
    crooked.live.overlaps ⟨1⟩ ⟨3⟩ ≠ crooked.live.overlaps ⟨3⟩ ⟨1⟩ ∧
      ((new ((Config.default.withSeed 5).withBuild .sweep)).load crooked 0).graph.edgeCount = 2 ∧
      ((new ((Config.default.withSeed 5).withBuild .sweep)).load crooked 0).colorGraph.fault? =
        none ∧
      ((new ((Config.default.withSeed 5).withBuild .sweep)).run crooked 0).1 =
        .error (.unspillable ⟨3⟩) ∧
      (AllocError.unspillable ⟨3⟩).isFault = false := by
  have hrun : ((new ((Config.default.withSeed 5).withBuild .sweep)).run crooked 0).1 =
      .error (.unspillable ⟨3⟩) := error?_eq_some_iff.mp (by decide +kernel)
  obtain ⟨hsound, hfault, _⟩ :=
    check_finds_nothing (new ((Config.default.withSeed 5).withBuild .sweep)) crooked 0
  exact ⟨by decide, by decide +kernel, hsound, hrun, hfault _ hrun⟩

end Round

/-!
When a run fails, and what it leaves then. It fails over the lowest node without candidates; if no
node lacks them, over the lowest node that must not be spilled and got an extended color; and if no
node did, over the lowest marked value that must not be spilled. Values without a live range have no
part in it.
-/

/-- The procedure with other values listed. -/
def Procedure.withValues (p : Procedure) (vs : List Value) : Procedure :=
  { p with live := { p.live with values := vs } }

namespace Liveness

/-- The marked values that need a location and must not be spilled. -/
def refused (live : Liveness) (marked : FiniteSet Value) : Set Value :=
  {v | v ∈ marked ∧ v ∈ live.values ∧ live.hasRange v = true ∧ live.spillable v = false}

theorem failure?_spilled_eq_some_iff {live : Liveness} {v : Value} {e : AllocError} :
    live.failure? v .spilled = some e ↔ e = .unspillable v ∧ live.spillable v = false := by
  rw [failure?]
  cases live.spillable v <;> simp [eq_comm]

/-- The values with a fate that fails. -/
def failing (live : Liveness) (fs : List (Value × Fate)) : Set Value :=
  {v | ∃ f, (v, f) ∈ fs ∧ (live.failure? v f).isSome = true}

theorem failing_eq_empty_iff {live : Liveness} {fs : List (Value × Fate)} :
    live.failing fs = ∅ ↔ (fs.findSome? fun f => live.failure? f.1 f.2) = none := by
  rw [Set.eq_empty_iff_forall_notMem, List.findSome?_eq_none_iff]
  constructor
  · intro h f hf
    rw [← Option.not_isSome_iff_eq_none]
    exact fun hsome => h f.1 ⟨f.2, hf, hsome⟩
  · rintro h v ⟨f, hf, hsome⟩
    rw [h (v, f) hf] at hsome
    cases hsome

/-- Where values ascend and nothing but a spill can fail, the first failure is that of the lowest
value. -/
theorem firstFailure_iff {live : Liveness} {fs : List (Value × Fate)}
    (strict : (fs.map Prod.fst).Pairwise (· < ·))
    (spills : ∀ v f e, (v, f) ∈ fs → live.failure? v f = some e → e = .unspillable v)
    {e : AllocError} : (fs.findSome? fun f => live.failure? f.1 f.2) = some e ↔
      ∃ v, e = .unspillable v ∧ IsLeast (live.failing fs) v := by
  rw [findSome?_eq_some_iff_of_strict (List.pairwise_map.mp strict)]
  constructor
  · rintro ⟨⟨v, f⟩, hf, he, least⟩
    refine ⟨v, spills v f e hf he, ⟨f, hf, by rw [he]; rfl⟩, ?_⟩
    rintro w ⟨g, hg, hsome⟩
    exact least (w, g) hg hsome
  · rintro ⟨v, rfl, ⟨f, hf, hsome⟩, least⟩
    obtain ⟨e, he⟩ := Option.isSome_iff_exists.mp hsome
    refine ⟨(v, f), hf, ?_, fun g hg hsome => least ⟨g.2, hg, hsome⟩⟩
    rw [he, spills v f e hf he]

end Liveness

namespace Round

/-- The nodes without candidates. -/
def starved (r : Round) (p : Procedure) : Set Value := {v | v ∈ r.graph.nodes ∧ p.candidates v = []}

/-- The nodes that must not be spilled and got an extended color. -/
def stranded (r : Round) (live : Liveness) : Set Value :=
  {v | v ∈ r.graph.nodes ∧ live.spillable v = false ∧ ∃ id, r.color? v = some (.extended id)}

theorem Alike.starved {r s : Round} (h : r.Alike s) {p q : Procedure}
    (candidates : p.candidates = q.candidates) : r.starved p = s.starved q := by
  ext v
  simp only [Round.starved, h.graph.nodes, candidates]

theorem Alike.stranded {r s : Round} (h : r.Alike s) {live live' : Liveness}
    (spillable : live.spillable = live'.spillable) : r.stranded live = s.stranded live' := by
  ext v
  simp only [Round.stranded, h.graph.nodes, h.colors, spillable]

section Fates

variable {r : Round} {live : Liveness} {marked : FiniteSet Value}

/-- A real color never fails: it is a place in the list of candidates. -/
theorem failure?_fateOf_eq_some_iff (apart : r.RegistersApart) {v : Value} {c : Color}
    {e : AllocError} (hc : r.color? v = some c) : live.failure? v (r.fateOf v c) = some e ↔
      e = .unspillable v ∧ live.spillable v = false ∧ ∃ id, c = .extended id := by
  cases c with
  | real index =>
    obtain ⟨reg, hreg⟩ : ∃ reg, (r.candidatesOf v)[index]? = some reg :=
      ⟨_, List.getElem?_eq_getElem (apart.placed v index hc)⟩
    simp [fateOf, hreg, Liveness.failure?]
  | extended id => simp [fateOf, Liveness.failure?_spilled_eq_some_iff]

theorem failing_coloredFates (apart : r.RegistersApart)
    (nodes : ∀ v c, r.color? v = some c → v ∈ r.graph.nodes) :
    live.failing r.coloredFates = r.stranded live := by
  ext v
  constructor
  · rintro ⟨f, hf, hsome⟩
    obtain ⟨c, hc, rfl⟩ := mem_coloredFates.mp hf
    obtain ⟨e, he⟩ := Option.isSome_iff_exists.mp hsome
    obtain ⟨_, hspill, id, rfl⟩ := (failure?_fateOf_eq_some_iff apart hc).mp he
    exact ⟨nodes v _ hc, hspill, id, hc⟩
  · rintro ⟨_, hspill, id, hc⟩
    have he := (failure?_fateOf_eq_some_iff apart hc).mpr ⟨rfl, hspill, id, rfl⟩
    exact ⟨_, mem_coloredFates.mpr ⟨_, hc, rfl⟩, Option.isSome_of_eq_some he⟩

theorem failing_markedFates :
    live.failing (markedFates live marked) = live.refused marked := by
  ext v
  constructor
  · rintro ⟨f, hf, hsome⟩
    obtain ⟨hv, rfl⟩ := mem_markedFates.mp hf
    obtain ⟨e, he⟩ := Option.isSome_iff_exists.mp hsome
    obtain ⟨hmarked, hlive, hrange⟩ := mem_markedLive.mp hv
    exact ⟨hmarked, hlive, hrange, (Liveness.failure?_spilled_eq_some_iff.mp he).2⟩
  · rintro ⟨hmarked, hlive, hrange, hspill⟩
    have he := Liveness.failure?_spilled_eq_some_iff.mpr ⟨rfl, hspill⟩
    exact ⟨_, mem_markedFates.mpr ⟨mem_markedLive.mpr ⟨hmarked, hlive, hrange⟩, rfl⟩,
      Option.isSome_of_eq_some he⟩

/-- Colored values are resolved before marked ones, so a marked value fails only if no node does. -/
theorem firstFailure_fates_iff (apart : r.RegistersApart)
    (nodes : ∀ v c, r.color? v = some c → v ∈ r.graph.nodes) {e : AllocError} :
    ((r.fates live marked).findSome? fun f => live.failure? f.1 f.2) = some e ↔
      ∃ v, e = .unspillable v ∧ (IsLeast (r.stranded live) v ∨
        r.stranded live = ∅ ∧ IsLeast (live.refused marked) v) := by
  have hcolored : ∀ v f e, (v, f) ∈ r.coloredFates → live.failure? v f = some e →
      e = .unspillable v := by
    intro v f e hf he
    obtain ⟨c, hc, rfl⟩ := mem_coloredFates.mp hf
    exact ((failure?_fateOf_eq_some_iff apart hc).mp he).1
  have hmarked : ∀ v f e, (v, f) ∈ markedFates live marked → live.failure? v f = some e →
      e = .unspillable v := by
    intro v f e hf he
    obtain ⟨_, rfl⟩ := mem_markedFates.mp hf
    exact (Liveness.failure?_spilled_eq_some_iff.mp he).1
  have hstrict : ((markedFates live marked).map Prod.fst).Pairwise (· < ·) := by
    rw [keys_markedFates]
    exact markedLive_strict live marked
  rw [fates_eq, List.findSome?_append, Option.or_eq_some_iff,
    Liveness.firstFailure_iff r.keys_coloredFates_strict hcolored,
    Liveness.firstFailure_iff hstrict hmarked, ← Liveness.failing_eq_empty_iff,
    failing_coloredFates apart nodes, failing_markedFates]
  constructor
  · rintro (⟨v, he, hv⟩ | ⟨hnone, v, he, hv⟩)
    · exact ⟨v, he, .inl hv⟩
    · exact ⟨v, he, .inr ⟨hnone, hv⟩⟩
  · rintro ⟨v, he, hv | ⟨hnone, hv⟩⟩
    · exact .inl ⟨v, he, hv⟩
    · exact .inr ⟨hnone, v, he, hv⟩

theorem no_failure_fates_iff (apart : r.RegistersApart)
    (nodes : ∀ v c, r.color? v = some c → v ∈ r.graph.nodes) :
    ((r.fates live marked).findSome? fun f => live.failure? f.1 f.2) = none ↔
      r.stranded live = ∅ ∧ live.refused marked = ∅ := by
  rw [fates_eq, List.findSome?_append, Option.or_eq_none_iff, ← Liveness.failing_eq_empty_iff,
    ← Liveness.failing_eq_empty_iff, failing_coloredFates apart nodes, failing_markedFates]

end Fates

section Run

variable {r : Round} {p : Procedure} {drawn : UInt64}

theorem starved?_eq_some_iff {v : Value} :
    r.starved? p.candidates = some v ↔ IsLeast (r.starved p) v := by
  have hset : {w | w ∈ r.graph.nodes.sorted ∧ (p.candidates w).isEmpty = true} = r.starved p := by
    ext w
    simp [starved]
  rw [starved?, find?_eq_some_iff_isLeast r.graph.nodes.sorted_strict, hset]

theorem candidateFault?_eq_none_iff_starved :
    r.candidateFault? p.candidates = none ↔ r.starved p = ∅ := by
  rw [candidateFault?_eq_none_iff, Set.eq_empty_iff_forall_notMem]
  exact forall_congr' fun v => not_and.symm

theorem starved_run : (r.run p drawn).2.starved p = (r.load p drawn).starved p := by
  rw [starved, starved, (r.run_sameProblem p drawn).graph]

theorem isLeast_of_candidateFault? {e : AllocError}
    (h : (r.load p drawn).candidateFault? p.candidates = some e) :
    ∃ v, e = .noCandidates v ∧ IsLeast ((r.load p drawn).starved p) v := by
  obtain ⟨v, hv, rfl⟩ := Option.map_eq_some_iff.mp h
  exact ⟨v, rfl, starved?_eq_some_iff.mp hv⟩

theorem run_of_starved {v : Value} (h : IsLeast ((r.load p drawn).starved p) v) :
    r.run p drawn = (.error (.noCandidates v), r.load p drawn) := by
  have hfault : (r.load p drawn).candidateFault? p.candidates = some (.noCandidates v) := by
    rw [candidateFault?, starved?_eq_some_iff.mpr h]
    rfl
  rw [run_eq_conclude, conclude, hfault]

theorem error?_run_of_reached (reached : (r.load p drawn).candidateFault? p.candidates = none) :
    error? (r.run p drawn).1 = ((r.run p drawn).2.fates p.live r.marked).findSome?
      fun f => p.live.failure? f.1 f.2 := by
  have h := r.concludes_run p drawn
  generalize r.run p drawn = outcome at h ⊢
  obtain ⟨result, s⟩ := outcome
  cases h with
  | starved e starved =>
    rw [reached] at starved
    cases starved
  | faulty e reached faulty =>
    rw [checked?_eq_none (r.fault?_colorGraph_load p drawn)] at faulty
    cases faulty
  | failed e reached sound failed => exact failed.symm
  | allocated reached sound done => exact done.symm

/-- The errors of a run: there is no other. -/
theorem run_error_iff {e : AllocError} : (r.run p drawn).1 = .error e ↔
    (∃ v, e = .noCandidates v ∧ IsLeast ((r.run p drawn).2.starved p) v) ∨
      (r.run p drawn).2.starved p = ∅ ∧ ∃ v, e = .unspillable v ∧
        (IsLeast ((r.run p drawn).2.stranded p.live) v ∨
          (r.run p drawn).2.stranded p.live = ∅ ∧ IsLeast (p.live.refused r.marked) v) := by
  cases reached : (r.load p drawn).candidateFault? p.candidates with
  | some e' =>
    obtain ⟨v, rfl, hleast⟩ := isLeast_of_candidateFault? reached
    have hnonempty : (r.load p drawn).starved p ≠ ∅ := (Set.nonempty_of_mem hleast.1).ne_empty
    rw [starved_run, run_of_starved hleast]
    constructor
    · intro he
      exact .inl ⟨v, (Except.error.inj he).symm, hleast⟩
    · rintro (⟨w, rfl, hw⟩ | ⟨hempty, _⟩)
      · rw [Std.le_antisymm (hw.2 hleast.1) (hleast.2 hw.1)]
      · exact absurd hempty hnonempty
  | none =>
    have hempty := candidateFault?_eq_none_iff_starved.mp reached
    rw [starved_run, hempty, ← error?_eq_some_iff, error?_run_of_reached reached,
      firstFailure_fates_iff (registersApart_run reached) (nodes_of_colored reached)]
    simp [IsLeast]

theorem run_ok_iff : (∃ a, (r.run p drawn).1 = .ok a) ↔
    (r.run p drawn).2.starved p = ∅ ∧ (r.run p drawn).2.stranded p.live = ∅ ∧
      p.live.refused r.marked = ∅ := by
  cases reached : (r.load p drawn).candidateFault? p.candidates with
  | some e =>
    obtain ⟨v, _, hleast⟩ := isLeast_of_candidateFault? reached
    have hnonempty : (r.load p drawn).starved p ≠ ∅ := (Set.nonempty_of_mem hleast.1).ne_empty
    rw [starved_run, run_of_starved hleast]
    exact iff_of_false (by simp) fun h => hnonempty h.1
  | none =>
    have hempty := candidateFault?_eq_none_iff_starved.mp reached
    rw [starved_run, hempty, ← error?_eq_none_iff, error?_run_of_reached reached,
      no_failure_fates_iff (registersApart_run reached) (nodes_of_colored reached)]
    simp

/-- What a run leaves that ends over the node `v` before the coloring pass. -/
structure StoppedOver (s : Round) (p : Procedure) (marked : FiniteSet Value) (v : Value) :
    Prop where
  colors : ∀ w, s.color? w = none
  pool : s.pool = []
  candidates : ∀ w regs, s.candidates.get? w = some regs ↔
    (w ∈ s.graph.nodes ∧ w < v) ∧ regs = (FiniteSet.ofList (p.candidates w)).sorted
  weights : ∀ w weight, s.weight? w = some weight ↔
    (w ∈ s.graph.nodes ∨ w ∈ marked) ∧ weight = p.usage.weight w

theorem stoppedOver_load {v : Value} (h : IsLeast ((r.load p drawn).starved p) v) :
    (r.load p drawn).StoppedOver p r.marked v := by
  refine ⟨load_uncolored.color?_eq, load_uncolored.pool, ?_, fun _ _ => weight?_load_eq_some_iff⟩
  intro w regs
  have hstored := mem_takeWhile_iff_lt (y := w) (r.load p drawn).graph.nodes.sorted_strict
    (starved?_eq_some_iff.mpr h)
  rw [FiniteSet.mem_sorted] at hstored
  rw [candidates_load, ← hstored]
  split <;> simp_all [eq_comm]

/-- When a run with the given result fails, and the round `s` that it leaves then. `loaded` is the
round at the start of the coloring pass. -/
structure FailsExactly (loaded s : Round) (p : Procedure) (marked : FiniteSet Value)
    (result : Except AllocError Allocation) : Prop where
  noCandidates_iff : ∀ v, result = .error (.noCandidates v) ↔ IsLeast (s.starved p) v
  stopped : ∀ v, result = .error (.noCandidates v) → s.StoppedOver p marked v
  unspillable_iff : ∀ v, result = .error (.unspillable v) ↔ s.starved p = ∅ ∧
    (IsLeast (s.stranded p.live) v ∨
      s.stranded p.live = ∅ ∧ IsLeast (p.live.refused marked) v)
  colored : ∀ v, result = .error (.unspillable v) →
    (∃ log, s = { loaded.colorAll loaded.graph.byDegree with log := log }) ∧
      ∀ w, (∃ c, s.color? w = some c) ↔ w ∈ s.graph.nodes
  succeeds_iff : (∃ a, result = .ok a) ↔
    s.starved p = ∅ ∧ s.stranded p.live = ∅ ∧ p.live.refused marked = ∅
  spilled : ∀ a, result = .ok a → ∀ v, a.isSpilled v = true → p.live.spillable v = true
  ranged : ∀ e, result = .error e →
    ∃ v, (e = .noCandidates v ∨ e = .unspillable v) ∧ p.live.hasRange v = true

theorem hasRange_of_mem_nodes_run {v : Value} (h : v ∈ (r.run p drawn).2.graph.nodes) :
    p.live.hasRange v = true := (Liveness.mem_nodes.mp (mem_nodes_run.mp h)).2.1

theorem spillable_of_isSpilled {a : Allocation} (ok : (r.run p drawn).1 = .ok a) {v : Value}
    (hv : a.isSpilled v = true) : p.live.spillable v = true := by
  obtain ⟨_, hstranded, hrefused⟩ := run_ok_iff.mp ⟨a, ok⟩
  by_contra hspill
  rw [Bool.not_eq_true] at hspill
  rcases (isSpilled_run ok).mp hv with ⟨id, hc⟩ | hmarked
  · have hmem : v ∈ (r.run p drawn).2.stranded p.live :=
      ⟨nodes_of_colored (ok_reached ok) v _ hc, hspill, id, hc⟩
    rw [hstranded] at hmem
    exact hmem
  · obtain ⟨hm, hlive, hrange⟩ := mem_markedLive.mp hmarked
    have hmem : v ∈ p.live.refused r.marked := ⟨hm, hlive, hrange, hspill⟩
    rw [hrefused] at hmem
    exact hmem

theorem run_failsExactly : FailsExactly (r.load p drawn) (r.run p drawn).2 p r.marked
    (r.run p drawn).1 where
  noCandidates_iff v := by rw [run_error_iff]; simp
  stopped v h := by
    have hleast : IsLeast ((r.run p drawn).2.starved p) v := by
      rw [run_error_iff] at h
      simpa using h
    rw [starved_run] at hleast
    rw [run_of_starved hleast]
    exact stoppedOver_load hleast
  unspillable_iff v := by rw [run_error_iff]; simp
  colored v h := by
    have hempty : (r.run p drawn).2.starved p = ∅ := by
      rw [run_error_iff] at h
      simp only [reduceCtorEq, false_and, exists_false, false_or] at h
      exact h.1
    have reached := candidateFault?_eq_none_iff_starved.mpr (starved_run ▸ hempty)
    refine ⟨run_of_reached reached, fun w => ⟨?_, fun hw => colored_run reached hw⟩⟩
    rintro ⟨c, hc⟩
    exact nodes_of_colored reached w c hc
  succeeds_iff := run_ok_iff
  spilled a ok v hv := spillable_of_isSpilled ok hv
  ranged e h := by
    rcases run_error_iff.mp h with ⟨v, rfl, hv⟩ | ⟨_, v, rfl, hv | ⟨_, hv⟩⟩
    · exact ⟨v, .inl rfl, hasRange_of_mem_nodes_run hv.1.1⟩
    · exact ⟨v, .inr rfl, hasRange_of_mem_nodes_run hv.1.1⟩
    · exact ⟨v, .inr rfl, hv.1.2.2.1⟩

end Run

section Ranged

variable {r s : Round} {p : Procedure} {vs : List Value}

/-- Which values without a live range are listed or marked does not matter to a failure. -/
theorem run_error_iff_of_ranged (config : s.config = r.config)
    (values : ∀ v, p.live.hasRange v = true → (v ∈ vs ↔ v ∈ p.live.values))
    (marks : ∀ v ∈ p.live.values, p.live.hasRange v = true → (v ∈ s.marked ↔ v ∈ r.marked))
    {drawn : UInt64} {e : AllocError} :
    (s.run (p.withValues vs) drawn).1 = .error e ↔ (r.run p drawn).1 = .error e := by
  have hlisted : ∀ v, (v ∈ vs ∧ p.live.hasRange v = true) ↔
      (v ∈ p.live.values ∧ p.live.hasRange v = true) :=
    fun v => and_congr_left (values v)
  have hnodes : (p.withValues vs).live.nodes s.marked = p.live.nodes r.marked := by
    apply Liveness.nodes_eq_of_mem_iff
    intro v
    rw [← and_assoc, ← and_assoc]
    exact (and_congr_left' (hlisted v)).trans
      (and_congr_right fun hv => not_congr (marks v hv.1 hv.2))
  have hmarked : markedLive (p.withValues vs).live s.marked = markedLive p.live r.marked := by
    apply markedLive_eq_of_mem_iff
    intro v
    exact (and_congr_right' (hlisted v)).trans (and_congr_left fun hv => marks v hv.1 hv.2)
  have halike : (s.load (p.withValues vs) drawn).Alike (r.load p drawn) :=
    load_alike_of_nodes (p := p.withValues vs) (q := p) config (by rw [config]) rfl ⟨rfl, rfl, rfl⟩
      hnodes
  have herror : error? (s.run (p.withValues vs) drawn).1 = error? (r.run p drawn).1 :=
    halike.error?_conclude (p := p.withValues vs) (q := p) load_consistent load_consistent rfl rfl
      hmarked
  rw [← error?_eq_some_iff, herror, error?_eq_some_iff]

end Ranged

/-- A run fails over the lowest node without candidates, else over the lowest value that is spilled
and must not be, and in no other case. Values without a live range have no part in it. -/
theorem fails_exactly (r : Round) (p : Procedure) (drawn : UInt64) :
    FailsExactly (r.load p drawn) (r.run p drawn).2 p r.marked (r.run p drawn).1 ∧
      ∀ (s : Round) (vs : List Value), s.config = r.config →
        (∀ v, p.live.hasRange v = true → (v ∈ vs ↔ v ∈ p.live.values)) →
        (∀ v ∈ p.live.values, p.live.hasRange v = true → (v ∈ s.marked ↔ v ∈ r.marked)) →
        ∀ e, (s.run (p.withValues vs) drawn).1 = .error e ↔ (r.run p drawn).1 = .error e :=
  ⟨run_failsExactly, fun _ _ config values marks _ => run_error_iff_of_ranged config values marks⟩

/-- Three nodes in each other's way and one register. Only the lowest of them may be spilled. -/
def scarce : Procedure where
  live :=
    { values := [⟨5⟩, ⟨2⟩, ⟨4⟩, ⟨2⟩, ⟨1⟩, ⟨0⟩]
      overlaps := fun _ _ => true
      spillable := fun v => decide (v = ⟨2⟩)
      hasRange := fun v => decide (v ≠ ⟨0⟩)
      extent := fun _ => none }
  candidates := fun _ => [⟨7⟩]
  usage := ⟨fun _ => [], fun _ => 0, fun _ _ => .none⟩

def barren : Procedure :=
  { scarce with candidates := fun v => if ⟨4⟩ ≤ v then [] else [⟨7⟩, ⟨3⟩] }

/-- Of the marked values one has no live range and one is unknown. -/
def premarked : Round := (((new (Config.default.withSeed 5)).mark ⟨1⟩).mark ⟨0⟩).mark ⟨9⟩

theorem scarce_fails_exactly :
    (premarked.run scarce 0).1 = .error (.unspillable ⟨4⟩) ∧
      IsLeast ((premarked.run scarce 0).2.stranded scarce.live) ⟨4⟩ ∧
      ⟨1⟩ ∈ scarce.live.refused premarked.marked ∧
      (((new (Config.default.withSeed 5)).mark ⟨1⟩).run
        (scarce.withValues [⟨1⟩, ⟨2⟩, ⟨4⟩, ⟨5⟩]) 0).1 = .error (.unspillable ⟨4⟩) ∧
      (premarked.run barren 0).1 = .error (.noCandidates ⟨4⟩) ∧
      (premarked.run barren 0).2.StoppedOver barren premarked.marked ⟨4⟩ := by
  have hscarce : (premarked.run scarce 0).1 = .error (.unspillable ⟨4⟩) :=
    error?_eq_some_iff.mp (by decide +kernel)
  have hbarren : (premarked.run barren 0).1 = .error (.noCandidates ⟨4⟩) :=
    error?_eq_some_iff.mp (by decide +kernel)
  obtain ⟨hexact, hranged⟩ := fails_exactly premarked scarce 0
  have hstranded : IsLeast ((premarked.run scarce 0).2.stranded scarce.live) ⟨4⟩ := by
    obtain ⟨_, hleast | ⟨_, hrefused⟩⟩ := (hexact.unspillable_iff ⟨4⟩).mp hscarce
    · exact hleast
    · exact absurd hrefused.1.1 (by decide)
  have hvalues : ∀ v, scarce.live.hasRange v = true →
      (v ∈ ([⟨1⟩, ⟨2⟩, ⟨4⟩, ⟨5⟩] : List Value) ↔ v ∈ scarce.live.values) := by
    intro v hv
    have hsub : ∀ w ∈ ([⟨1⟩, ⟨2⟩, ⟨4⟩, ⟨5⟩] : List Value), w ∈ scarce.live.values := by decide
    have hsup : ∀ w ∈ scarce.live.values, scarce.live.hasRange w = true →
        w ∈ ([⟨1⟩, ⟨2⟩, ⟨4⟩, ⟨5⟩] : List Value) := by decide
    exact ⟨hsub v, fun h => hsup v h hv⟩
  have hwithout := hranged ((new (Config.default.withSeed 5)).mark ⟨1⟩) _ rfl hvalues (by decide)
    (.unspillable ⟨4⟩)
  exact ⟨hscarce, hstranded, ⟨by decide, by decide, by decide, by decide⟩, hwithout.mpr hscarce,
    hbarren, (fails_exactly premarked barren 0).1.stopped _ hbarren⟩

end Round

end RegisterColoring
