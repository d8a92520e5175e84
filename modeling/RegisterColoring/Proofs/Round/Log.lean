import RegisterColoring.Proofs.Allocation
import RegisterColoring.Proofs.Round.Failure
import RegisterColoring.Proofs.Round.Pool

/-!
The log of a run, event by event and line by line.
-/

namespace RegisterColoring

/-!
What the coloring pass reports. A step reports its node with the degree and the color it got, and
right before it the color that was created for it, if one was. A color is final when it is reported,
so what the log says of a node stays true.
-/

namespace Event

/-- The node whose coloring the event reports. -/
def colored? : Event → Option Value
  | nodeColored v _ _ => some v
  | _ => none

def created? : Event → Option Int32
  | extendedCreated id => some id
  | _ => none

theorem mem_filterMap_colored? {log : List Event} {v : Value} {degree : Nat} {c : Color}
    (h : nodeColored v degree c ∈ log) : v ∈ log.filterMap colored? :=
  List.mem_filterMap.mpr ⟨_, h, rfl⟩

end Event

/-- The color of each report of a new color is that of the node reported directly after it. -/
def Paired (log : List Event) : Prop :=
  ∀ i id, log[i]? = some (.extendedCreated id) →
    ∃ v degree, log[i + 1]? = some (.nodeColored v degree (.extended id))

theorem Paired.append {log events : List Event} (h : Paired log) (hevents : Paired events) :
    Paired (log ++ events) := by
  intro i id hi
  rcases Nat.lt_or_ge i log.length with hlt | hge
  · rw [List.getElem?_append_left hlt] at hi
    obtain ⟨v, degree, hnext⟩ := h i id hi
    have hlt' : i + 1 < log.length := (List.getElem?_eq_some_iff.mp hnext).1
    exact ⟨v, degree, (List.getElem?_append_left hlt').trans hnext⟩
  · rw [List.getElem?_append_right hge] at hi
    obtain ⟨v, degree, hnext⟩ := hevents _ id hi
    rw [← Nat.sub_add_comm hge] at hnext
    exact ⟨v, degree, (List.getElem?_append_right (by omega)).trans hnext⟩

theorem paired_of_none_created {log : List Event} (none : log.filterMap Event.created? = []) :
    Paired log := by
  intro i id hi
  have hmem : id ∈ log.filterMap Event.created? :=
    List.mem_filterMap.mpr ⟨_, List.mem_of_getElem? hi, rfl⟩
  rw [none] at hmem
  cases hmem

/-- What a step reports of its node, `new` being the color that it created. -/
def stepReport (new : Option Int32) (v : Value) (degree : Nat) (c : Color) : List Event :=
  new.toList.map .extendedCreated ++ [.nodeColored v degree c]

section StepReport

variable {new : Option Int32} {v : Value} {degree : Nat} {c : Color}

theorem colored_stepReport : (stepReport new v degree c).filterMap Event.colored? = [v] := by
  cases new <;> rfl

theorem created_stepReport :
    (stepReport new v degree c).filterMap Event.created? = new.toList := by
  cases new <;> rfl

theorem mem_stepReport {w : Value} {d : Nat} {k : Color} :
    .nodeColored w d k ∈ stepReport new v degree c ↔ w = v ∧ d = degree ∧ k = c := by
  cases new <;> simp [stepReport]

theorem paired_stepReport (got : ∀ id, new = some id → c = .extended id) :
    Paired (stepReport new v degree c) := by
  cases new with
  | none => exact paired_of_none_created created_stepReport
  | some id =>
    obtain rfl := got id rfl
    intro i id' hi
    match i with
    | 0 =>
      obtain rfl := Event.extendedCreated.inj (Option.some.inj hi)
      exact ⟨v, degree, rfl⟩
    | 1 => cases hi

end StepReport

namespace Round

theorem log_colorNode (r : Round) (v : Value) : ∃ new : Option Int32,
    (r.colorNode v).pool = r.pool ++ new.toList ∧
      (r.colorNode v).log =
        r.log ++ stepReport new v (r.graph.degree v) (r.selectColor v).1 ∧
      ∀ id, new = some id → (r.selectColor v).1 = .extended id := by
  have hlog : (r.colorNode v).log = (r.selectColor v).2.log ++
      [.nodeColored v ((r.selectColor v).2.graph.degree v) (r.selectColor v).1] := rfl
  have h := r.selects_selectColor v
  rw [hlog, pool_colorNode, h.sameProblem.graph]
  generalize r.selectColor v = choice at h
  obtain ⟨c, s⟩ := choice
  cases h with
  | candidate => exact ⟨none, (List.append_nil _).symm, rfl, nofun⟩
  | shared => exact ⟨none, (List.append_nil _).symm, rfl, nofun⟩
  | created =>
    refine ⟨some r.nextExtended, rfl, List.append_assoc _ _ _, ?_⟩
    rintro _ ⟨⟩
    rfl

/-- The log tells of the coloring of the nodes in `done`, and of the pool. -/
structure PassTold (r : Round) (done : List Value) : Prop where
  colored : r.log.filterMap Event.colored? = done
  truthful : ∀ v degree c, .nodeColored v degree c ∈ r.log →
    degree = r.graph.degree v ∧ r.color? v = some c
  created : r.log.filterMap Event.created? = r.pool
  paired : Paired r.log

variable {r : Round} {done : List Value}

theorem PassTold.mem_done (told : r.PassTold done) {v : Value} {degree : Nat} {c : Color}
    (h : .nodeColored v degree c ∈ r.log) : v ∈ done :=
  told.colored ▸ Event.mem_filterMap_colored? h

theorem PassTold.colorNode (told : r.PassTold done) {v : Value} (fresh : v ∉ done) :
    (r.colorNode v).PassTold (done ++ [v]) := by
  obtain ⟨new, hpool, hlog, hgot⟩ := r.log_colorNode v
  have same := r.colorNode_sameProblem v
  constructor <;> rw [hlog]
  · rw [List.filterMap_append, told.colored, colored_stepReport]
  · intro w degree c h
    rw [same.graph]
    rcases List.mem_append.mp h with hold | hnew
    -- a node that has been reported is not colored again
    · have hne : w ≠ v := fun heq => fresh (heq ▸ told.mem_done hold)
      rw [color?_colorNode_of_ne r hne]
      exact told.truthful w degree c hold
    · obtain ⟨rfl, rfl, rfl⟩ := mem_stepReport.mp hnew
      exact ⟨rfl, r.color?_colorNode_self w⟩
  · rw [List.filterMap_append, told.created, created_stepReport, hpool]
  · exact told.paired.append (paired_stepReport hgot)

theorem PassTold.colorAll (told : r.PassTold done) {vs : List Value} (nodup : (done ++ vs).Nodup) :
    (r.colorAll vs).PassTold (done ++ vs) := by
  induction vs generalizing r done with
  | nil => exact (List.append_nil done).symm ▸ told
  | cons v vs ih =>
    have fresh : v ∉ done := fun hv =>
      (List.nodup_append.mp nodup).2.2 v hv v List.mem_cons_self rfl
    have hsplit : done ++ v :: vs = (done ++ [v]) ++ vs := List.append_cons done v vs
    rw [colorAll_cons, hsplit]
    exact ih (told.colorNode fresh) (hsplit ▸ nodup)

/-- Adding reports of other kinds to the log keeps what it tells of the pass. -/
theorem PassTold.append (told : r.PassTold done) {events : List Event}
    (colored : events.filterMap Event.colored? = [])
    (created : events.filterMap Event.created? = []) :
    ({ r with log := r.log ++ events } : Round).PassTold done := by
  constructor
  · rw [List.filterMap_append, told.colored, colored, List.append_nil]
  · intro v degree c h
    rcases List.mem_append.mp h with hold | hnew
    · exact told.truthful v degree c hold
    · have hmem := Event.mem_filterMap_colored? hnew
      rw [colored] at hmem
      cases hmem
  · rw [List.filterMap_append, told.created, created, List.append_nil]
  · exact told.paired.append (paired_of_none_created created)

end Round

/-!
What the log of a run says. It names every node with its degree and its final color, the extended
colors in the order of their creation, the totals, and the values that are spilled, up to the one
over which the run fails if it fails.
-/

namespace Event

end Event

namespace Round

/-- The lines of the log that report something of one kind. -/
def lines {β : Type} (r : Round) (kind : Event → Option β) : List String :=
  (r.log.filter fun e => (kind e).isSome).map Event.text

/-- What becomes of a subtraction that overflows: a build that checks its arithmetic stops there,
and one that does not check it wraps around. -/
inductive Overflow where
  | stops
  | wraps

/-- The number of the color that is created after `k` others. -/
def Overflow.number : Overflow → Nat → Int
  | stops, k => -((k : Int) + 1)
  | wraps, k => (Int32.ofInt (-((k : Int) + 1))).toInt

section Lines

variable {r : Round}

end Lines

section Exact

variable {r s : Round}

/-- Each color of the pool is one below the color created before it, also as an integer. -/
def PoolExact (r : Round) : Prop :=
  ∀ k older newer, r.pool[k]? = some older → r.pool[k + 1]? = some newer →
    newer.toInt = older.toInt - 1

theorem PoolExact.create (exact : r.PoolExact) (next : r.NextExact)
    (pool : s.pool = r.pool ++ [r.nextExtended]) : s.PoolExact := by
  intro k older newer holder hnewer
  rw [pool] at holder hnewer
  have hk := (List.getElem?_eq_some_iff.mp hnewer).1
  rw [List.length_append, List.length_singleton] at hk
  rw [List.getElem?_append_left (by omega)] at holder
  rcases Nat.lt_or_ge (k + 1) r.pool.length with hlt | hge
  · rw [List.getElem?_append_left hlt] at hnewer
    exact exact k older newer holder hnewer
  · have hlast : k + 1 = r.pool.length := by omega
    have hnewest : r.pool.getLast? = some older := by
      rw [List.getLast?_eq_getElem?, ← hlast]
      exact holder
    rw [hlast, List.getElem?_concat_length, nextExtended, hnewest] at hnewer
    obtain rfl := Option.some.inj hnewer
    exact next older hnewest

theorem PoolExact.colorAll (exact : r.PoolExact) {vs : List Value}
    (next : ∀ s, r.CreatesAt (.colorAll vs) s → s.NextExact) : (r.colorAll vs).PoolExact := by
  induction vs generalizing r with
  | nil => exact exact
  | cons v vs ih =>
    rw [colorAll_cons]
    apply ih
    · have hpool := r.pool_colorNode_eq v
      by_cases hnew : r.freeIndices v = [] ∧ r.freeExtended v = []
      · rw [if_pos hnew] at hpool
        exact exact.create (next r (.colorAll [] vs v hnew.1 hnew.2)) hpool
      · rw [if_neg hnew] at hpool
        rw [PoolExact, hpool]
        exact exact
    · intro s creates
      cases creates with
      | colorAll pre post w exhausted none =>
        exact next _ (.colorAll (v :: pre) post w exhausted none)

end Exact

section Before

variable {β : Type} {f : Event → Option β}

end Before

variable {r : Round} {p : Procedure} {drawn : UInt64}

section Spills

variable {live : Liveness} {marked : FiniteSet Value}

end Spills

section Run

end Run

end Round

end RegisterColoring
