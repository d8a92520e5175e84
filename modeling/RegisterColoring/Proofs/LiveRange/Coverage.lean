import Mathlib.Data.List.Pairwise
import Mathlib.Order.Bounds.Basic
import RegisterColoring.LiveRange.Basic

/-!
Live ranges as sets of positions. A range covers what the segments added to it cover, however they
were cut, and two ranges overlap exactly when they cover a common position. The extent of a range
holds every position it covers.
-/

namespace RegisterColoring

namespace Segment

def Covers (s : Segment) (p : Nat) : Prop := s.start ≤ p ∧ p < s.stop

instance (s : Segment) (p : Nat) : Decidable (s.Covers p) :=
  inferInstanceAs (Decidable (_ ∧ _))

theorem meets_iff {s t : Segment} : s.meets t = true ↔ s.start < t.stop ∧ t.start < s.stop := by
  simp [meets]

theorem meets_iff_covers {s t : Segment} (hs : s.start < s.stop) (ht : t.start < t.stop) :
    s.meets t = true ↔ ∃ p, s.Covers p ∧ t.Covers p := by
  rw [meets_iff]
  constructor
  · intro h
    refine ⟨max s.start t.start, ?_, ?_⟩ <;> unfold Covers <;> omega
  · rintro ⟨p, hs, ht⟩
    unfold Covers at hs ht
    omega

theorem covers_extendTo {s t : Segment} {p : Nat} (ordered : s.start ≤ t.start)
    (touching : t.start ≤ s.stop) : (s.extendTo t).Covers p ↔ s.Covers p ∨ t.Covers p := by
  unfold Covers extendTo
  dsimp only
  omega

theorem covers_joinFrom {s : Segment} {ss : List Segment} {p : Nat}
    (ordered : (s :: ss).Pairwise (fun s t => s.start ≤ t.start)) :
    (∃ x ∈ s.joinFrom ss, x.Covers p) ↔ s.Covers p ∨ ∃ t ∈ ss, t.Covers p := by
  fun_induction joinFrom s ss with
  | case1 s => simp
  | case2 s t ts touching ih =>
    obtain ⟨hs, tail⟩ := List.pairwise_cons.mp ordered
    have hst : s.start ≤ t.start := hs t List.mem_cons_self
    have hext : (s.extendTo t :: ts).Pairwise (fun s t => s.start ≤ t.start) := by
      refine List.pairwise_cons.mpr ⟨?_, (List.pairwise_cons.mp tail).2⟩
      intro x hx
      exact hs x (List.mem_cons_of_mem _ hx)
    rw [ih hext, covers_extendTo hst touching]
    simp only [List.mem_cons, exists_eq_or_imp, or_assoc]
  | case3 s t ts gap ih =>
    have tail := (List.pairwise_cons.mp ordered).2
    simp only [List.mem_cons, exists_eq_or_imp, ih tail]

theorem covers_join {ss : List Segment} {p : Nat}
    (ordered : ss.Pairwise (fun s t => s.start ≤ t.start)) :
    (∃ x ∈ join ss, x.Covers p) ↔ ∃ s ∈ ss, s.Covers p := by
  cases ss with
  | nil => rfl
  | cons s ss =>
    rw [join, covers_joinFrom ordered]
    simp only [List.mem_cons, exists_eq_or_imp]

end Segment

namespace LiveRange

def Covers (r : LiveRange) (p : Nat) : Prop := ∃ s ∈ r.segments, s.Covers p

theorem not_covers_empty (p : Nat) : ¬ empty.Covers p := by
  rintro ⟨s, hs, _⟩
  cases hs

theorem covers_add {r : LiveRange} {s : Segment} {p : Nat} :
    (r.add s).Covers p ↔ r.Covers p ∨ s.Covers p := by
  unfold add
  split
  · have ordered := Segment.ordered_placeIn (s := s) r.canonical.ordered
    unfold Covers
    rw [Segment.covers_join ordered]
    simp only [Segment.mem_placeIn, or_and_right, exists_or, exists_eq_left]
    exact or_comm
  · rename_i hempty
    have hs : ¬ s.Covers p := by
      intro h
      unfold Segment.Covers at h
      omega
    exact (or_iff_left hs).symm

theorem covers_ofSegments {ss : List Segment} {p : Nat} :
    (ofSegments ss).Covers p ↔ ∃ s ∈ ss, s.Covers p := by
  suffices ∀ r : LiveRange, (ss.foldl add r).Covers p ↔ r.Covers p ∨ ∃ s ∈ ss, s.Covers p by
    exact (this empty).trans (or_iff_right (not_covers_empty p))
  induction ss with
  | nil => simp
  | cons s ss ih =>
    intro r
    rw [List.foldl_cons, ih, covers_add, or_assoc]
    simp only [List.mem_cons, exists_eq_or_imp]

/-- The segment that ends first is dropped for good: what follows the other one starts later. -/
theorem segmentsMeet_iff {as bs : List Segment} (ha : Segment.Canonical as)
    (hb : Segment.Canonical bs) :
    segmentsMeet as bs = true ↔ ∃ a ∈ as, ∃ b ∈ bs, a.meets b = true := by
  fun_induction segmentsMeet as bs with
  | case1 => simp
  | case2 => simp
  | case3 a as b bs hm =>
    exact iff_of_true rfl ⟨a, List.mem_cons_self, b, List.mem_cons_self, hm⟩
  | case4 a as b bs hm hle ih =>
    obtain ⟨hafter, hasep⟩ := List.pairwise_cons.mp ha.separated
    have htail : Segment.Canonical as :=
      ⟨fun s hs => ha.nonempty s (List.mem_cons_of_mem _ hs), hasep⟩
    have hnone : ∀ c ∈ b :: bs, ¬ a.meets c = true := by
      intro c hc
      rcases List.mem_cons.mp hc with rfl | hc
      · exact hm
      · have := (List.pairwise_cons.mp hb.separated).1 c hc
        rw [Segment.meets_iff]
        omega
    rw [ih htail hb]
    constructor
    · rintro ⟨c, hc, h⟩
      exact ⟨c, List.mem_cons_of_mem _ hc, h⟩
    · rintro ⟨c, hc, d, hd, h⟩
      rcases List.mem_cons.mp hc with rfl | hc
      · exact absurd h (hnone d hd)
      · exact ⟨c, hc, d, hd, h⟩
  | case5 a as b bs hm hlt ih =>
    obtain ⟨hbfter, hbsep⟩ := List.pairwise_cons.mp hb.separated
    have htail : Segment.Canonical bs :=
      ⟨fun s hs => hb.nonempty s (List.mem_cons_of_mem _ hs), hbsep⟩
    have hnone : ∀ c ∈ a :: as, ¬ c.meets b = true := by
      intro c hc
      rcases List.mem_cons.mp hc with rfl | hc
      · exact hm
      · have := (List.pairwise_cons.mp ha.separated).1 c hc
        rw [Segment.meets_iff]
        omega
    rw [ih ha htail]
    constructor
    · rintro ⟨c, hc, d, hd, h⟩
      exact ⟨c, hc, d, List.mem_cons_of_mem _ hd, h⟩
    · rintro ⟨c, hc, d, hd, h⟩
      rcases List.mem_cons.mp hd with rfl | hd
      · exact absurd h (hnone c hc)
      · exact ⟨c, hc, d, hd, h⟩

theorem overlaps_iff {r t : LiveRange} :
    r.overlaps t = true ↔ ∃ p, r.Covers p ∧ t.Covers p := by
  unfold overlaps
  rw [segmentsMeet_iff r.canonical t.canonical]
  constructor
  · rintro ⟨a, ha, b, hb, h⟩
    obtain ⟨p, hpa, hpb⟩ := (Segment.meets_iff_covers (r.canonical.nonempty a ha)
      (t.canonical.nonempty b hb)).mp h
    exact ⟨p, ⟨a, ha, hpa⟩, ⟨b, hb, hpb⟩⟩
  · rintro ⟨p, ⟨a, ha, hpa⟩, ⟨b, hb, hpb⟩⟩
    exact ⟨a, ha, b, hb, (Segment.meets_iff_covers (r.canonical.nonempty a ha)
      (t.canonical.nonempty b hb)).mpr ⟨p, hpa, hpb⟩⟩

theorem overlaps_comm (r t : LiveRange) : r.overlaps t = t.overlaps r := by
  rw [Bool.eq_iff_iff, overlaps_iff, overlaps_iff]
  simp only [and_comm]

theorem start_le_of_mem {r : LiveRange} {n : Nat} {t : Segment} (h : r.start? = some n)
    (ht : t ∈ r.segments) : n ≤ t.start := by
  obtain ⟨s, hs, rfl⟩ := Option.map_eq_some_iff.mp h
  obtain ⟨tail, htail⟩ := List.head?_eq_some_iff.mp hs
  have ordered := r.canonical.ordered
  rw [htail] at ht ordered
  rcases List.mem_cons.mp ht with rfl | ht
  · exact Nat.le_refl _
  · exact (List.pairwise_cons.mp ordered).1 t ht

theorem stop_le_of_mem {r : LiveRange} {n : Nat} {t : Segment} (h : r.stop? = some n)
    (ht : t ∈ r.segments) : t.stop ≤ n := by
  obtain ⟨s, hs, rfl⟩ := Option.map_eq_some_iff.mp h
  obtain ⟨init, hinit⟩ := List.getLast?_eq_some_iff.mp hs
  have hne := r.canonical.nonempty s (hinit ▸ List.mem_append_right _ List.mem_cons_self)
  have separated := r.canonical.separated
  rw [hinit] at ht separated
  rcases List.mem_append.mp ht with ht | ht
  · have := (List.pairwise_append.mp separated).2.2 t ht s List.mem_cons_self
    omega
  · obtain rfl := List.mem_singleton.mp ht
    exact Nat.le_refl _

theorem covers_extent {r : LiveRange} {e : Segment} {p : Nat} (h : r.Covers p)
    (he : r.extent? = some e) : e.Covers p := by
  obtain ⟨t, ht, hp⟩ := h
  unfold extent? at he
  cases hstart : r.start? with
  | none => simp [hstart] at he
  | some a =>
    cases hstop : r.stop? with
    | none => simp [hstop] at he
    | some b =>
      obtain rfl : ⟨a, b⟩ = e := by simpa [hstart, hstop] using he
      have := start_le_of_mem hstart ht
      have := stop_le_of_mem hstop ht
      unfold Segment.Covers at hp ⊢
      dsimp only
      omega

end LiveRange

/-!
A live range is a set of positions in canonical form. Its segments are the maximal runs of the
positions it covers, in ascending order, so a set of positions has one range, in whatever pieces and
in whatever order it was given.
-/

namespace Segment

/-- The positions that a list of segments covers. -/
def positions (ss : List Segment) : Set Nat := {p | ∃ s ∈ ss, s.Covers p}

/-- A run of positions of `ps` that cannot be made longer at either end. -/
structure IsRun (s : Segment) (ps : Set Nat) : Prop where
  nonempty : s.start < s.stop
  within : ∀ p, s.Covers p → p ∈ ps
  begins : ∀ p, p + 1 = s.start → p ∉ ps
  ends : s.stop ∉ ps

namespace IsRun

variable {s t : Segment} {ps : Set Nat}

theorem covers_start (h : s.IsRun ps) : s.Covers s.start := ⟨Nat.le_refl _, h.nonempty⟩

theorem start_le (hs : s.IsRun ps) (ht : t.IsRun ps) {p : Nat} (hsp : s.Covers p)
    (htp : t.Covers p) : t.start ≤ s.start := by
  by_contra hlt
  have hpred : s.Covers (t.start - 1) := by
    unfold Covers at *
    omega
  exact ht.begins (t.start - 1) (by omega) (hs.within _ hpred)

theorem stop_le (hs : s.IsRun ps) (ht : t.IsRun ps) {p : Nat} (hsp : s.Covers p)
    (htp : t.Covers p) : s.stop ≤ t.stop := by
  by_contra hlt
  have hstop : s.Covers t.stop := by
    unfold Covers at *
    omega
  exact ht.ends (hs.within _ hstop)

/-- Runs of one set are apart or the same. -/
theorem eq_of_covers (hs : s.IsRun ps) (ht : t.IsRun ps) {p : Nat} (hsp : s.Covers p)
    (htp : t.Covers p) : s = t := by
  have hstart := Nat.le_antisymm (ht.start_le hs htp hsp) (hs.start_le ht hsp htp)
  have hstop := Nat.le_antisymm (hs.stop_le ht hsp htp) (ht.stop_le hs htp hsp)
  obtain ⟨a, b⟩ := s
  obtain ⟨c, d⟩ := t
  exact (mk.injEq a b c d).mpr ⟨hstart, hstop⟩

end IsRun

namespace Canonical

variable {ss : List Segment}

theorem apart (h : Canonical ss) {s t : Segment} (hs : s ∈ ss) (ht : t ∈ ss) :
    s = t ∨ s.stop < t.start ∨ t.stop < s.start := by
  have hapart : ss.Pairwise fun s t => s.stop < t.start ∨ t.stop < s.start :=
    h.separated.imp Or.inl
  have symmetric : Std.Symm fun s t : Segment => s.stop < t.start ∨ t.stop < s.start :=
    ⟨fun _ _ => Or.symm⟩
  by_cases heq : s = t
  · exact .inl heq
  · exact .inr (hapart.forall hs ht heq)

/-- Nothing covers the position before a segment or the one it stops at: there are gaps. -/
theorem isRun_of_mem (h : Canonical ss) {s : Segment} (hs : s ∈ ss) : s.IsRun (positions ss) := by
  have hlt := h.nonempty s hs
  refine ⟨hlt, fun p hp => ⟨s, hs, hp⟩, ?_, ?_⟩
  · rintro p hp ⟨t, ht, hcovers⟩
    have hne := h.nonempty t ht
    unfold Covers at hcovers
    rcases h.apart hs ht with rfl | hst | hts <;> omega
  · rintro ⟨t, ht, hcovers⟩
    unfold Covers at hcovers
    rcases h.apart hs ht with rfl | hst | hts <;> omega

theorem mem_iff_isRun (h : Canonical ss) {s : Segment} : s ∈ ss ↔ s.IsRun (positions ss) := by
  constructor
  · exact h.isRun_of_mem
  · intro hrun
    obtain ⟨t, ht, hcovers⟩ := hrun.within _ hrun.covers_start
    rw [hrun.eq_of_covers (h.isRun_of_mem ht) hrun.covers_start hcovers]
    exact ht

theorem sorted (h : Canonical ss) : ss.Pairwise fun s t => s.start < t.start := by
  refine h.separated.imp_of_mem ?_
  intro s t hs _ hst
  exact Nat.lt_trans (h.nonempty s hs) hst

theorem nodup (h : Canonical ss) : ss.Nodup := by
  refine h.sorted.imp ?_
  rintro s _ hlt rfl
  exact Nat.lt_irrefl _ hlt

/-- The same positions have the same runs, and the runs have one order. -/
theorem eq_of_positions_eq {ts : List Segment} (hs : Canonical ss) (ht : Canonical ts)
    (same : positions ss = positions ts) : ss = ts := by
  have hmem : ∀ s, s ∈ ss ↔ s ∈ ts := by
    intro s
    rw [hs.mem_iff_isRun, ht.mem_iff_isRun, same]
  have hperm : ss.Perm ts := (List.perm_ext_iff_of_nodup hs.nodup ht.nodup).mpr hmem
  refine hperm.eq_of_pairwise ?_ hs.sorted ht.sorted
  intro s t _ _ hst hts
  exact absurd hts (Nat.lt_asymm hst)

end Canonical

/-- The ends of a run were given: nothing else makes a position covered and its neighbor not. -/
theorem IsRun.bounds_given {s : Segment} {ss : List Segment} (h : s.IsRun (positions ss)) :
    (∃ t ∈ ss, t.start = s.start) ∧ ∃ t ∈ ss, t.stop = s.stop := by
  constructor
  · obtain ⟨t, ht, hcovers⟩ := h.within _ h.covers_start
    refine ⟨t, ht, ?_⟩
    by_contra hne
    have hpred : t.Covers (s.start - 1) := by
      unfold Covers at *
      omega
    refine h.begins (s.start - 1) ?_ ⟨t, ht, hpred⟩
    unfold Covers at hcovers
    omega
  · have hlast : s.Covers (s.stop - 1) := by
      have := h.nonempty
      unfold Covers
      omega
    obtain ⟨t, ht, hcovers⟩ := h.within _ hlast
    refine ⟨t, ht, ?_⟩
    by_contra hne
    have hstop : t.Covers s.stop := by
      unfold Covers at *
      omega
    exact h.ends ⟨t, ht, hstop⟩

end Segment

namespace LiveRange

open Segment (positions)

variable {r t : LiveRange}

/-- Ranges are equal when they cover the same positions. -/
theorem eq_of_positions_eq (same : positions r.segments = positions t.segments) : r = t := by
  have hsegments := r.canonical.eq_of_positions_eq t.canonical same
  obtain ⟨_, _⟩ := r
  obtain ⟨_, _⟩ := t
  cases hsegments
  rfl

theorem isEmpty_iff_positions : r.isEmpty = true ↔ positions r.segments = ∅ := by
  rw [isEmpty, List.isEmpty_iff]
  constructor
  · intro h
    rw [h]
    exact Set.eq_empty_of_forall_notMem fun p ⟨s, hs, _⟩ => List.not_mem_nil hs
  · intro h
    apply List.eq_nil_iff_forall_not_mem.mpr
    intro s hs
    have hrun := r.canonical.isRun_of_mem hs
    rw [h] at hrun
    exact hrun.within _ hrun.covers_start

theorem isLeast_of_start? {n : Nat} (h : r.start? = some n) :
    IsLeast (positions r.segments) n := by
  constructor
  · obtain ⟨s, hs, rfl⟩ := Option.map_eq_some_iff.mp h
    have hmem := List.mem_of_mem_head? hs
    exact ⟨s, hmem, (r.canonical.isRun_of_mem hmem).covers_start⟩
  · rintro p ⟨s, hs, hcovers⟩
    exact Nat.le_trans (start_le_of_mem h hs) hcovers.1

theorem isGreatest_of_stop? {n : Nat} (h : r.stop? = some n) :
    ∃ p, n = p + 1 ∧ IsGreatest (positions r.segments) p := by
  obtain ⟨s, hs, rfl⟩ := Option.map_eq_some_iff.mp h
  have hmem := List.mem_of_getLast? hs
  have hlt := r.canonical.nonempty s hmem
  refine ⟨s.stop - 1, by omega, ⟨s, hmem, by omega, by omega⟩, ?_⟩
  rintro p ⟨t, ht, hcovers⟩
  have hle := stop_le_of_mem h ht
  have hp := hcovers.2
  omega

theorem start?_eq_some_iff {n : Nat} :
    r.start? = some n ↔ IsLeast (positions r.segments) n := by
  constructor
  · exact isLeast_of_start?
  · intro hleast
    obtain ⟨s, hs, _⟩ := hleast.1
    obtain ⟨m, hm⟩ : ∃ m, r.start? = some m := by
      rw [← Option.isSome_iff_exists, start?, Option.isSome_map, List.isSome_head?]
      simpa using List.ne_nil_of_mem hs
    rw [hm, (isLeast_of_start? hm).unique hleast]

theorem stop?_eq_some_iff {n : Nat} :
    r.stop? = some n ↔ ∃ p, n = p + 1 ∧ IsGreatest (positions r.segments) p := by
  constructor
  · exact isGreatest_of_stop?
  · rintro ⟨p, rfl, hgreatest⟩
    obtain ⟨s, hs, _⟩ := hgreatest.1
    obtain ⟨m, hm⟩ : ∃ m, r.stop? = some m := by
      rw [← Option.isSome_iff_exists, stop?, Option.isSome_map]
      exact List.getLast?_isSome.mpr (List.ne_nil_of_mem hs)
    obtain ⟨q, rfl, hq⟩ := isGreatest_of_stop? hm
    rw [hm, hq.unique hgreatest]

/-- The range of some segments given at once, to which others are added one by one. -/
def built (given added : List Segment) : LiveRange := added.foldl add (ofSegments given)

theorem built_eq (given added : List Segment) :
    built given added = ofSegments (given ++ added) := List.foldl_append.symm

theorem positions_built (given added : List Segment) :
    positions (built given added).segments = positions (given ++ added) := by
  rw [built_eq]
  ext p
  exact covers_ofSegments

/-- Every range comes about by adding segments: adding its own gives it back. -/
theorem ofSegments_segments (r : LiveRange) : ofSegments r.segments = r := by
  apply eq_of_positions_eq
  ext p
  exact covers_ofSegments

/-- The range `r` is the canonical form of the positions that the segments in `ss` cover. -/
structure Represents (r : LiveRange) (ss : List Segment) : Prop where
  nonempty : ∀ s ∈ r.segments, s.start < s.stop
  sorted : r.segments.Pairwise fun s t => s.start < t.start
  separated : r.segments.Pairwise fun s t => s.stop < t.start
  covers_iff : ∀ p, r.Covers p ↔ ∃ s ∈ ss, s.Covers p
  mem_iff_run : ∀ s, s ∈ r.segments ↔ s.IsRun (positions ss)
  bounds : ∀ s ∈ r.segments, (∃ t ∈ ss, t.start = s.start) ∧ ∃ t ∈ ss, t.stop = s.stop
  start_iff : ∀ n, r.start? = some n ↔ IsLeast (positions ss) n
  stop_iff : ∀ n, r.stop? = some n ↔ ∃ p, n = p + 1 ∧ IsGreatest (positions ss) p
  isEmpty_iff : r.isEmpty = true ↔ positions ss = ∅

theorem represents_of_positions_eq {ss : List Segment}
    (same : positions r.segments = positions ss) : r.Represents ss where
  nonempty := r.canonical.nonempty
  sorted := r.canonical.sorted
  separated := r.canonical.separated
  covers_iff p := Set.ext_iff.mp same p
  mem_iff_run s := by rw [r.canonical.mem_iff_isRun, same]
  bounds s hs := by
    have hrun := r.canonical.isRun_of_mem hs
    rw [same] at hrun
    exact hrun.bounds_given
  start_iff n := by rw [start?_eq_some_iff, same]
  stop_iff n := by rw [stop?_eq_some_iff, same]
  isEmpty_iff := by rw [isEmpty_iff_positions, same]

/-- A live range is known by the positions it covers, in whatever pieces and in whatever order they
were added to it. -/
theorem ranges_are_sets_of_positions :
    (∀ given added : List Segment, (built given added).Represents (given ++ added)) ∧
      (∀ r : LiveRange, built [] r.segments = r) ∧
      (∀ r t : LiveRange, r = t ↔ ∀ p, r.Covers p ↔ t.Covers p) ∧
      ∀ given added given' added' : List Segment, built given added = built given' added' ↔
        positions (given ++ added) = positions (given' ++ added') := by
  have heq : ∀ r t : LiveRange, r = t ↔ positions r.segments = positions t.segments := by
    intro r t
    constructor
    · exact fun h => by rw [h]
    · exact eq_of_positions_eq
  refine ⟨fun given added => represents_of_positions_eq (positions_built given added),
    ofSegments_segments, ?_, ?_⟩
  · intro r t
    rw [heq, Set.ext_iff]
    exact .rfl
  · intro given added given' added'
    rw [heq, positions_built, positions_built]

/-- Cut differently, repeated and out of order, with empty and inverted pieces between. -/
example : built [⟨4, 9⟩, ⟨7, 2⟩, ⟨0, 2⟩] [⟨2, 3⟩, ⟨5, 6⟩] =
    built [] [⟨6, 9⟩, ⟨1, 3⟩, ⟨3, 3⟩, ⟨0, 1⟩, ⟨4, 6⟩, ⟨1, 3⟩] := by decide

end LiveRange

end RegisterColoring
