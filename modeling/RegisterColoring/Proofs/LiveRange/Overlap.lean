import Mathlib.Data.List.Induction
import RegisterColoring.LiveRange.Table
import RegisterColoring.Proofs.Graph.Strategy
import RegisterColoring.Proofs.LiveRange.Coverage

/-!
Tables of live ranges by the positions they cover. A value covers the segments it was last entered
with, overlap is a common position, and a table answers faithfully: overlap is symmetric and the
extents hold the ranges.
-/

namespace RegisterColoring

namespace LiveRangeTable

/-- A value as it is entered into a table. The segments of its range come in any order. -/
structure Entry where
  value : Value
  segments : List Segment
  spillable : Bool

def enter (t : LiveRangeTable) (e : Entry) : LiveRangeTable :=
  if e.spillable then t.insert e.value (.ofSegments e.segments)
  else t.insertUnspillable e.value (.ofSegments e.segments)

def ofEntries (es : List Entry) : LiveRangeTable := es.foldl enter .empty

/-- The segments a value was last entered with. -/
def segmentsGiven (es : List Entry) (v : Value) : List Segment :=
  es.foldl (fun ss e => if e.value = v then e.segments else ss) []

def Covers (t : LiveRangeTable) (v : Value) (p : Nat) : Prop :=
  ∃ r, t.range? v = some r ∧ r.Covers p

theorem range?_enter (t : LiveRangeTable) (e : Entry) (v : Value) :
    (t.enter e).range? v = if v = e.value then some (.ofSegments e.segments) else t.range? v := by
  unfold enter
  split <;> simp only [insert, insertUnspillable, range?, FiniteMap.get?_insert] <;> split <;> rfl

theorem covers_ofEntries {es : List Entry} {v : Value} {p : Nat} :
    (ofEntries es).Covers v p ↔ ∃ s ∈ segmentsGiven es v, s.Covers p := by
  induction es using List.reverseRecOn with
  | nil =>
    constructor
    · rintro ⟨r, hr, _⟩
      cases hr
    · rintro ⟨s, hs, _⟩
      cases hs
  | append_singleton es e ih =>
    have htable : ofEntries (es ++ [e]) = (ofEntries es).enter e := List.foldl_append
    have hgiven : segmentsGiven (es ++ [e]) v =
        if e.value = v then e.segments else segmentsGiven es v := List.foldl_append
    rw [htable, hgiven]
    simp only [Covers, range?_enter]
    by_cases hv : v = e.value
    · rw [if_pos hv, if_pos hv.symm, ← LiveRange.covers_ofSegments]
      simp
    · rw [if_neg hv, if_neg (Ne.symm hv)]
      exact ih

theorem overlaps_iff {t : LiveRangeTable} {u v : Value} :
    t.overlaps u v = true ↔ ∃ p, t.Covers u p ∧ t.Covers v p := by
  unfold overlaps Covers
  cases hu : t.range? u with
  | none => simp
  | some r =>
    cases hv : t.range? v with
    | none => simp
    | some s =>
      dsimp only
      rw [LiveRange.overlaps_iff]
      simp

theorem overlaps_comm (t : LiveRangeTable) (u v : Value) : t.overlaps u v = t.overlaps v u := by
  rw [Bool.eq_iff_iff, overlaps_iff, overlaps_iff]
  simp only [and_comm]

theorem covers_extent {t : LiveRangeTable} {v : Value} {p : Nat} {e : Segment}
    (h : t.Covers v p) (he : t.extent v = some e) : e.Covers p := by
  obtain ⟨r, hr, hp⟩ := h
  rw [extent, hr] at he
  exact LiveRange.covers_extent hp he

theorem liveness_faithful (t : LiveRangeTable) (vs : List Value) :
    t.liveness.Faithful vs := by
  constructor
  · exact t.overlaps_comm
  · intro _ u _ v _ _ ho d e hd he
    obtain ⟨p, hu, hv⟩ := overlaps_iff.mp ho
    obtain ⟨hdp, hpd⟩ := covers_extent hu hd
    obtain ⟨hep, hpe⟩ := covers_extent hv he
    omega

end LiveRangeTable

/-!
The overlap test as a loop over places. Two places walk along the segments of two ranges, and each
turn moves one of them on or ends the walk. What the lists have from the two places on answers for
the whole lists at every turn, so the walk never reads beyond a list, ends after as many turns as
there are segments and one more, and answers whether some position is in both ranges.
-/

namespace LiveRange

/-- The loop between two turns: at a place of each list, at its end with an answer, or lost where it
read beyond the end of a list. -/
inductive Walk where
  | standing (i j : Nat)
  | ended (answer : Bool)
  | lost
deriving DecidableEq

namespace Walk

def turn (as bs : List Segment) : Walk → Walk
  | standing i j =>
    if i < as.length ∧ j < bs.length then
      match as[i]?, bs[j]? with
      | some a, some b =>
        if a.meets b then ended true
        else if a.stop ≤ b.stop then standing (i + 1) j
        else standing i (j + 1)
      | _, _ => lost
    else ended false
  | w => w

/-- The walk after `n` turns. One that has ended stays where it is. -/
def after (as bs : List Segment) : Nat → Walk
  | 0 => standing 0 0
  | n + 1 => (after as bs n).turn as bs

/-- What has been passed by makes no difference to the answer. -/
def OnCourse (as bs : List Segment) : Walk → Prop
  | standing i j => segmentsMeet (as.drop i) (bs.drop j) = segmentsMeet as bs
  | ended answer => answer = segmentsMeet as bs
  | lost => False

/-- A bound on the turns that are left. -/
def ahead (as bs : List Segment) : Walk → Nat
  | standing i j => (as.length - i) + (bs.length - j) + 1
  | _ => 0

variable {as bs : List Segment} {w : Walk}

theorem segmentsMeet_nil_right (as : List Segment) : segmentsMeet as [] = false := by
  cases as <;> simp [segmentsMeet]

theorem turn_standing {i j : Nat} (hi : i < as.length) (hj : j < bs.length) :
    (standing i j).turn as bs =
      if as[i].meets bs[j] then ended true
      else if as[i].stop ≤ bs[j].stop then standing (i + 1) j
      else standing i (j + 1) := by
  rw [turn, if_pos ⟨hi, hj⟩, List.getElem?_eq_getElem hi, List.getElem?_eq_getElem hj]

theorem turn_standing_outside {i j : Nat} (h : ¬ (i < as.length ∧ j < bs.length)) :
    (standing i j).turn as bs = ended false := by
  rw [turn, if_neg h]

theorem segmentsMeet_drop {i j : Nat} (hi : i < as.length) (hj : j < bs.length) :
    segmentsMeet (as.drop i) (bs.drop j) =
      if as[i].meets bs[j] then true
      else if as[i].stop ≤ bs[j].stop then segmentsMeet (as.drop (i + 1)) (bs.drop j)
      else segmentsMeet (as.drop i) (bs.drop (j + 1)) := by
  rw [List.drop_eq_getElem_cons hi, List.drop_eq_getElem_cons hj, segmentsMeet]

theorem segmentsMeet_drop_outside {i j : Nat} (h : ¬ (i < as.length ∧ j < bs.length)) :
    segmentsMeet (as.drop i) (bs.drop j) = false := by
  rcases Classical.not_and_iff_not_or_not.mp h with hi | hj
  · rw [List.drop_eq_nil_of_le (Nat.le_of_not_lt hi), segmentsMeet]
  · rw [List.drop_eq_nil_of_le (Nat.le_of_not_lt hj), segmentsMeet_nil_right]

/-- A turn reads one segment of each list, both there, and keeps to the course. -/
theorem OnCourse.turn (h : w.OnCourse as bs) : (w.turn as bs).OnCourse as bs := by
  cases w with
  | ended answer => exact h
  | lost => exact h
  | standing i j =>
    rw [OnCourse] at h
    by_cases inside : i < as.length ∧ j < bs.length
    · rw [segmentsMeet_drop inside.1 inside.2] at h
      rw [turn_standing inside.1 inside.2]
      split at h
      · rwa [if_pos ‹_›]
      · rw [if_neg ‹_›]
        split at h
        · rwa [if_pos ‹_›]
        · rwa [if_neg ‹_›]
    · rw [segmentsMeet_drop_outside inside] at h
      rw [turn_standing_outside inside]
      exact h

theorem ahead_turn_le (w : Walk) : (w.turn as bs).ahead as bs ≤ w.ahead as bs - 1 := by
  cases w with
  | ended answer => exact Nat.le_refl 0
  | lost => exact Nat.le_refl 0
  | standing i j =>
    by_cases inside : i < as.length ∧ j < bs.length
    · rw [turn_standing inside.1 inside.2]
      split
      · exact Nat.zero_le _
      · split <;> (simp only [ahead]; omega)
    · rw [turn_standing_outside inside]
      exact Nat.zero_le _

theorem onCourse_after (as bs : List Segment) (n : Nat) : (after as bs n).OnCourse as bs := by
  induction n with
  | zero => rfl
  | succ n ih => exact ih.turn

theorem ahead_after_le (as bs : List Segment) (n : Nat) :
    (after as bs n).ahead as bs ≤ as.length + bs.length + 1 - n := by
  induction n with
  | zero => exact Nat.le_refl _
  | succ n ih =>
    have hturn : ((after as bs n).turn as bs).ahead as bs ≤ (after as bs n).ahead as bs - 1 :=
      ahead_turn_le _
    rw [after]
    omega

theorem after_ne_lost (as bs : List Segment) (n : Nat) : after as bs n ≠ lost := by
  intro h
  have hcourse := onCourse_after as bs n
  rw [h] at hcourse
  exact hcourse

/-- The loop ends, and with the answer of the recursion over the lists. -/
theorem after_eq_ended {n : Nat} (enough : as.length + bs.length < n) :
    after as bs n = ended (segmentsMeet as bs) := by
  have hahead := ahead_after_le as bs n
  have hcourse := onCourse_after as bs n
  cases hw : after as bs n with
  | standing i j =>
    rw [hw, ahead] at hahead
    omega
  | ended answer =>
    rw [hw] at hcourse
    exact congrArg ended hcourse
  | lost => exact absurd hw (after_ne_lost as bs n)

end Walk

theorem overlaps_of_isEmpty {r t : LiveRange} (h : r.isEmpty = true ∨ t.isEmpty = true) :
    r.overlaps t = false := by
  have hnone : ∀ {s : LiveRange} {p : Nat}, s.isEmpty = true → ¬ s.Covers p := by
    rintro s p hs ⟨x, hx, _⟩
    rw [List.isEmpty_iff.mp hs] at hx
    cases hx
  rw [Bool.eq_false_iff, Ne, overlaps_iff]
  rintro ⟨p, hr, ht⟩
  exact h.elim (fun h => hnone h hr) (fun h => hnone h ht)

theorem exists_extent_of_covers {r : LiveRange} {p : Nat} (h : r.Covers p) :
    ∃ e, r.extent? = some e ∧ e.Covers p := by
  obtain ⟨s, hs, hp⟩ := h
  obtain ⟨a, as, hcons⟩ := List.exists_cons_of_ne_nil (List.ne_nil_of_mem hs)
  obtain ⟨e, he⟩ : ∃ e, r.extent? = some e := by
    simp [extent?, start?, stop?, hcons, List.getLast?_cons]
  exact ⟨e, he, covers_extent ⟨s, hs, hp⟩ he⟩

end LiveRange

namespace LiveRangeTable

variable {table : LiveRangeTable} {u v : Value}

theorem overlaps_iff_present : table.overlaps u v = true ↔
    ∃ r t, table.range? u = some r ∧ table.range? v = some t ∧
      ∃ p, r.Covers p ∧ t.Covers p := by
  rw [overlaps_iff]
  constructor
  · rintro ⟨p, ⟨r, hr, hrp⟩, ⟨t, ht, htp⟩⟩
    exact ⟨r, t, hr, ht, p, hrp, htp⟩
  · rintro ⟨r, t, hr, ht, p, hrp, htp⟩
    exact ⟨p, ⟨r, hr, hrp⟩, ⟨t, ht, htp⟩⟩

theorem exists_extent_of_covers {p : Nat} (h : table.Covers v p) :
    ∃ e, table.extent v = some e ∧ e.Covers p := by
  obtain ⟨r, hr, hp⟩ := h
  rw [extent, hr]
  exact LiveRange.exists_extent_of_covers hp

/-- A common position is in both extents. -/
theorem extents_meet_of_overlaps (h : table.overlaps u v = true) :
    ∃ d e, table.extent u = some d ∧ table.extent v = some e ∧ d.meets e = true := by
  obtain ⟨p, hu, hv⟩ := overlaps_iff.mp h
  obtain ⟨d, hd, hdp⟩ := exists_extent_of_covers hu
  obtain ⟨e, he, hep⟩ := exists_extent_of_covers hv
  refine ⟨d, e, hd, he, Segment.meets_iff.mpr ?_⟩
  unfold Segment.Covers at hdp hep
  omega

end LiveRangeTable

namespace LiveRange

/-- The overlap test ends, never reads beyond a list, and answers whether some position is in both
ranges. Values of a table that overlap have extents that meet. -/
theorem overlap_test_is_exact :
    (∀ r t : LiveRange,
      (∀ n, Walk.after r.segments t.segments n ≠ .lost) ∧
      (∀ n, r.segments.length + t.segments.length < n →
        Walk.after r.segments t.segments n = .ended (r.overlaps t)) ∧
      (r.overlaps t = true ↔ ∃ p, r.Covers p ∧ t.Covers p) ∧
      r.overlaps t = t.overlaps r ∧
      (r.isEmpty = true ∨ t.isEmpty = true → r.overlaps t = false)) ∧
    ∀ (table : LiveRangeTable) (u v : Value),
      (table.overlaps u v = true ↔ ∃ r t, table.range? u = some r ∧ table.range? v = some t ∧
        ∃ p, r.Covers p ∧ t.Covers p) ∧
      (table.overlaps u v = true →
        ∃ d e, table.extent u = some d ∧ table.extent v = some e ∧ d.meets e = true) := by
  constructor
  · intro r t
    exact ⟨Walk.after_ne_lost _ _, fun n => Walk.after_eq_ended, overlaps_iff, overlaps_comm r t,
      overlaps_of_isEmpty⟩
  · intro table u v
    exact ⟨LiveRangeTable.overlaps_iff_present, LiveRangeTable.extents_meet_of_overlaps⟩

/-- A range with a hole, and one that fills the hole and goes on into the second segment. -/
def holed : LiveRange := ofSegments [⟨5, 9⟩, ⟨0, 3⟩]

def bridging : LiveRange := ofSegments [⟨8, 12⟩, ⟨3, 5⟩]

def bridged : LiveRangeTable :=
  (LiveRangeTable.empty.insert ⟨1⟩ holed).insertUnspillable ⟨2⟩ bridging

theorem bridged_overlap_is_exact :
    holed.segments.length + bridging.segments.length < 5 ∧
      Walk.after holed.segments bridging.segments 5 = .ended (holed.overlaps bridging) ∧
      holed.overlaps bridging = true ∧
      empty.isEmpty = true ∧ empty.overlaps holed = false ∧
      bridged.overlaps ⟨1⟩ ⟨2⟩ = true ∧
      ∃ d e, bridged.extent ⟨1⟩ = some d ∧ bridged.extent ⟨2⟩ = some e ∧ d.meets e = true := by
  obtain ⟨hranges, htables⟩ := overlap_test_is_exact
  obtain ⟨_, hends, hiff, _, _⟩ := hranges holed bridging
  obtain ⟨_, _, _, _, hempty⟩ := hranges empty holed
  have hwalk := hends 5 (by decide)
  have hoverlaps : holed.overlaps bridging = true := by
    have hended : Walk.after holed.segments bridging.segments 5 = .ended true := by decide
    exact (Walk.ended.inj (hended.symm.trans hwalk)).symm
  have htable : bridged.overlaps ⟨1⟩ ⟨2⟩ = true :=
    (htables bridged ⟨1⟩ ⟨2⟩).1.mpr ⟨holed, bridging, by decide, by decide, hiff.mp hoverlaps⟩
  exact ⟨by decide, hwalk, hoverlaps, by decide, hempty (.inl (by decide)), htable,
    (htables bridged ⟨1⟩ ⟨2⟩).2 htable⟩

end LiveRange

end RegisterColoring
