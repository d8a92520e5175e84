/-!
Live ranges: sets of instruction positions, kept as half-open segments that are non-empty, sorted
and separated by gaps. A set of positions has one such list, so equal ranges are equal values.
-/

namespace RegisterColoring

/-- The positions from `start` up to and excluding `stop`. -/
structure Segment where
  start : Nat
  stop : Nat
deriving DecidableEq

namespace Segment

/-- The least segment that starts with `s` and reaches the end of both. -/
def extendTo (s t : Segment) : Segment := ⟨s.start, max s.stop t.stop⟩

def meets (s t : Segment) : Bool := decide (s.start < t.stop) && decide (t.start < s.stop)

/-- Takes the first segment together with every later one that touches it, and so on. -/
def joinFrom (s : Segment) : List Segment → List Segment
  | [] => [s]
  | t :: ts => if t.start ≤ s.stop then (s.extendTo t).joinFrom ts else s :: t.joinFrom ts

def join : List Segment → List Segment
  | [] => []
  | s :: ss => s.joinFrom ss

/-- Places `s` before the first segment that does not start earlier. -/
def placeIn (s : Segment) (ss : List Segment) : List Segment :=
  ss.takeWhile (fun t => decide (t.start < s.start)) ++
    s :: ss.dropWhile (fun t => decide (t.start < s.start))

/-- What a live range asks of its segments. -/
structure Canonical (ss : List Segment) : Prop where
  nonempty : ∀ s ∈ ss, s.start < s.stop
  separated : ss.Pairwise (fun s t => s.stop < t.start)

theorem Canonical.nil : Canonical [] := ⟨by simp, .nil⟩

theorem Canonical.ordered {ss : List Segment} (h : Canonical ss) :
    ss.Pairwise (fun s t => s.start ≤ t.start) :=
  h.separated.imp_of_mem fun hs _ hst => by have := h.nonempty _ hs; omega

theorem start_le_of_mem_joinFrom {s : Segment} {ss : List Segment}
    (ordered : (s :: ss).Pairwise (fun s t => s.start ≤ t.start)) {x : Segment}
    (hx : x ∈ s.joinFrom ss) : s.start ≤ x.start := by
  fun_induction joinFrom s ss with
  | case1 => simp_all
  | case2 s t ts _ ih => exact ih (by simp_all [extendTo]) hx
  | case3 s t ts _ ih =>
    rcases List.mem_cons.1 hx with rfl | hx
    · exact Nat.le_refl _
    · have := ih (List.pairwise_cons.1 ordered).2 hx
      have := (List.pairwise_cons.1 ordered).1 t List.mem_cons_self
      omega

theorem canonical_joinFrom {s : Segment} {ss : List Segment}
    (ordered : (s :: ss).Pairwise (fun s t => s.start ≤ t.start))
    (nonempty : ∀ x ∈ s :: ss, x.start < x.stop) : Canonical (s.joinFrom ss) := by
  fun_induction joinFrom s ss with
  | case1 => exact ⟨nonempty, List.pairwise_singleton _ _⟩
  | case2 s t ts _ ih =>
    refine ih (by simp_all [extendTo]) fun x hx => ?_
    have hs := nonempty s List.mem_cons_self
    rcases List.mem_cons.1 hx with rfl | hx
    · simp only [extendTo]; omega
    · exact nonempty x (by simp [hx])
  | case3 s t ts gap ih =>
    have tail := (List.pairwise_cons.1 ordered).2
    have ih := ih tail fun x hx => nonempty x (List.mem_cons_of_mem _ hx)
    refine ⟨fun x hx => ?_, List.pairwise_cons.2 ⟨fun x hx => ?_, ih.separated⟩⟩
    · rcases List.mem_cons.1 hx with rfl | hx
      · exact nonempty x List.mem_cons_self
      · exact ih.nonempty x hx
    · have := start_le_of_mem_joinFrom tail hx
      omega

theorem canonical_join {ss : List Segment}
    (ordered : ss.Pairwise (fun s t => s.start ≤ t.start))
    (nonempty : ∀ s ∈ ss, s.start < s.stop) : Canonical (join ss) := by
  cases ss with
  | nil => exact .nil
  | cons s ss => exact canonical_joinFrom ordered nonempty

theorem mem_placeIn {s x : Segment} {ss : List Segment} : x ∈ s.placeIn ss ↔ x = s ∨ x ∈ ss := by
  have := List.takeWhile_append_dropWhile (p := fun t => decide (t.start < s.start)) (l := ss)
  grind [placeIn]

theorem ordered_placeIn {s : Segment} {ss : List Segment}
    (ordered : ss.Pairwise (fun s t => s.start ≤ t.start)) :
    (s.placeIn ss).Pairwise (fun s t => s.start ≤ t.start) := by
  induction ss with
  | nil => simp [placeIn]
  | cons t ts ih =>
    have later := (List.pairwise_cons.1 ordered).1
    by_cases h : t.start < s.start
    · have step : s.placeIn (t :: ts) = t :: s.placeIn ts := by simp [placeIn, h]
      rw [step, List.pairwise_cons]
      refine ⟨fun x hx => ?_, ih (List.pairwise_cons.1 ordered).2⟩
      rcases mem_placeIn.1 hx with rfl | hx
      · omega
      · exact later x hx
    · have step : s.placeIn (t :: ts) = s :: t :: ts := by simp [placeIn, h]
      rw [step, List.pairwise_cons]
      refine ⟨fun x hx => ?_, ordered⟩
      rcases List.mem_cons.1 hx with rfl | hx
      · omega
      · have := later x hx
        omega

end Segment

structure LiveRange where
  segments : List Segment
  canonical : Segment.Canonical segments
deriving DecidableEq

namespace LiveRange

def empty : LiveRange := ⟨[], .nil⟩

instance : EmptyCollection LiveRange := ⟨empty⟩
instance : Inhabited LiveRange := ⟨empty⟩

/-- An empty segment adds nothing. -/
def add (r : LiveRange) (s : Segment) : LiveRange :=
  if h : s.start < s.stop then
    { segments := Segment.join (s.placeIn r.segments)
      canonical := Segment.canonical_join (Segment.ordered_placeIn r.canonical.ordered)
        fun x hx => (Segment.mem_placeIn.1 hx).elim (fun e => e ▸ h) (r.canonical.nonempty x) }
  else r

def ofSegments (ss : List Segment) : LiveRange := ss.foldl add empty

def isEmpty (r : LiveRange) : Bool := r.segments.isEmpty

def start? (r : LiveRange) : Option Nat := r.segments.head?.map Segment.start

def stop? (r : LiveRange) : Option Nat := r.segments.getLast?.map Segment.stop

/-- The least segment that holds the whole range. -/
def extent? (r : LiveRange) : Option Segment := do
  return ⟨← r.start?, ← r.stop?⟩

/-- Of two segments that do not meet, the one that ends first meets nothing that follows. -/
def segmentsMeet : List Segment → List Segment → Bool
  | [], _ => false
  | _, [] => false
  | a :: as, b :: bs =>
    if a.meets b then true
    else if a.stop ≤ b.stop then segmentsMeet as (b :: bs)
    else segmentsMeet (a :: as) bs
termination_by as bs => as.length + bs.length

/-- Whether two ranges share a position. -/
def overlaps (r t : LiveRange) : Bool := segmentsMeet r.segments t.segments

end LiveRange

end RegisterColoring
