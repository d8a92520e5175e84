import Mathlib.Data.List.Nodup
import RegisterColoring.Proofs.Graph.Consistency

/-!
Which pairs of values the two strategies make into edges. All pairs are asked in ascending order;
the sweep asks a pair exactly when the extent that starts first has not ended where the other one
starts. With symmetric overlaps and extents that hold the ranges, both find the same edges.
-/

namespace RegisterColoring

theorem mem_pairsOf {α : Type} {xs : List α} {x y : α} :
    (x, y) ∈ pairsOf xs ↔ [x, y].Sublist xs := by
  induction xs with
  | nil => simp [pairsOf]
  | cons z zs ih =>
    simp only [pairsOf, List.mem_append, List.mem_map, Prod.mk.injEq, ih]
    constructor
    · intro hm
      rcases hm with ⟨w, hw, rfl, rfl⟩ | h
      · exact (List.singleton_sublist.mpr hw).cons_cons z
      · exact h.cons z
    · intro h
      cases h with
      | cons _ h => exact .inr h
      | cons_cons _ h => exact .inl ⟨y, List.singleton_sublist.mp h, rfl, rfl⟩

namespace Extent

/-- The strict order of the sweep. -/
def Precedes (d e : Extent) : Prop :=
  d.span.start < e.span.start ∨ (d.span.start = e.span.start ∧ d.value < e.value)

theorem Precedes.start_le {d e : Extent} (h : d.Precedes e) : d.span.start ≤ e.span.start := by
  unfold Precedes at h
  omega

theorem Precedes.asymm (d e : Extent) (h : d.Precedes e) : ¬ e.Precedes d := by
  intro hm
  rcases hm with hlt | ⟨_, hlt⟩
  · have := h.start_le
    omega
  · rcases h with h | ⟨_, h⟩
    · omega
    · exact Std.not_gt_of_lt h hlt

theorem precedes_or_precedes {d e : Extent} (distinct : d.value ≠ e.value) :
    d.Precedes e ∨ e.Precedes d := by
  rcases Nat.lt_trichotomy d.span.start e.span.start with hs | hs | hs
  · exact .inl (.inl hs)
  · rcases Std.lt_trichotomy d.value e.value with hv | hv | hv
    · exact .inl (.inr ⟨hs, hv⟩)
    · exact absurd hv distinct
    · exact .inr (.inr ⟨hs.symm, hv⟩)
  · exact .inr (.inl hs)

theorem before_iff {d e : Extent} : d.before e = true ↔
    d.span.start < e.span.start ∨ (d.span.start = e.span.start ∧ d.value ≤ e.value) := by
  simp [before]

theorem pairwise_precedes_sortBy {es : List Extent} (distinct : (es.map Extent.value).Nodup) :
    (sortBy before es).Pairwise Precedes := by
  apply sortBy_pairwise_lex (fun e : Extent => e.span.start) (· < ·) Extent.value
  · exact fun _ _ => before_iff
  · intro j k
    omega
  · intro i j k
    omega
  · exact List.pairwise_map.mp distinct

/-- Removal from the active extents is final, and starts only grow: what has ended at an earlier
start has ended at every later one. -/
theorem mem_meetings {active es : List Extent} {u v : Value}
    (ordered : es.Pairwise (fun d e => d.span.start ≤ e.span.start)) :
    (u, v) ∈ meetings active es ↔ ∃ d e : Extent, d.value = u ∧ e.value = v ∧ e ∈ es ∧
      e.span.start < d.span.stop ∧ (d ∈ active ∨ [d, e].Sublist es) := by
  induction es generalizing active with
  | nil => simp [meetings]
  | cons f es ih =>
    obtain ⟨hf, tail⟩ := List.pairwise_cons.mp ordered
    simp only [meetings, List.mem_append, List.mem_map, Prod.mk.injEq, ih tail,
      List.mem_filter, decide_eq_true_eq, List.mem_singleton]
    constructor
    · rintro (⟨d, ⟨hd, hlt⟩, hu, hv⟩ | ⟨d, e, hu, hv, he, hlt, (⟨hd, _⟩ | hdf) | hsub⟩)
      · exact ⟨d, f, hu, hv, List.mem_cons_self, hlt, .inl hd⟩
      · exact ⟨d, e, hu, hv, List.mem_cons_of_mem _ he, hlt, .inl hd⟩
      · exact ⟨d, e, hu, hv, List.mem_cons_of_mem _ he, hlt,
          .inr (hdf ▸ (List.singleton_sublist.mpr he).cons_cons d)⟩
      · exact ⟨d, e, hu, hv, List.mem_cons_of_mem _ he, hlt, .inr (hsub.cons f)⟩
    · rintro ⟨d, e, hu, hv, he, hlt, hd | hsub⟩
      · rcases List.mem_cons.mp he with rfl | he
        · exact .inl ⟨d, ⟨hd, hlt⟩, hu, hv⟩
        · have := hf e he
          exact .inr ⟨d, e, hu, hv, he, hlt, .inl (.inl ⟨hd, by omega⟩)⟩
      · cases hsub with
        | cons _ hsub =>
          exact .inr ⟨d, e, hu, hv, hsub.subset (by simp), hlt, .inr hsub⟩
        | cons_cons _ hsub =>
          exact .inr ⟨_, e, hu, hv, List.singleton_sublist.mp hsub, hlt, .inl (.inr rfl)⟩

end Extent

namespace Liveness

theorem mem_nodes {live : Liveness} {marked : FiniteSet Value} {v : Value} :
    v ∈ live.nodes marked ↔ v ∈ live.values ∧ live.hasRange v = true ∧ v ∉ marked := by
  simp [nodes]

theorem nodes_strict (live : Liveness) (marked : FiniteSet Value) :
    (live.nodes marked).Pairwise (· < ·) := FiniteSet.sorted_strict _

theorem nodes_eq_of_mem_iff {live live' : Liveness} {m n : FiniteSet Value}
    (same : ∀ v, (v ∈ live.values ∧ live.hasRange v = true ∧ v ∉ m) ↔
      (v ∈ live'.values ∧ live'.hasRange v = true ∧ v ∉ n)) : live.nodes m = live'.nodes n := by
  apply eq_of_strict_of_mem_iff (live.nodes_strict m) (live'.nodes_strict n)
  intro v
  rw [mem_nodes, mem_nodes, same]

theorem mem_pairwise {live : Liveness} {vs : List Value} (strict : vs.Pairwise (· < ·))
    {u v : Value} : (u, v) ∈ live.pairwise vs ↔
      u ∈ vs ∧ v ∈ vs ∧ u < v ∧ live.overlaps u v = true := by
  rw [pairwise, List.mem_filter, mem_pairsOf,
    pair_sublist_iff (fun _ _ h => Std.not_gt_of_lt h) strict]
  simp only [and_assoc]

theorem mem_sweep {live : Liveness} {es : List Extent} (distinct : (es.map Extent.value).Nodup)
    {u v : Value} : (u, v) ∈ live.sweep es ↔
      ∃ d ∈ es, ∃ e ∈ es, d.value = u ∧ e.value = v ∧ d.Precedes e ∧
        e.span.start < d.span.stop ∧ live.overlaps u v = true := by
  have sorted := Extent.pairwise_precedes_sortBy distinct
  have ordered := sorted.imp (fun h => Extent.Precedes.start_le h)
  rw [sweep, List.mem_filter, Extent.mem_meetings ordered]
  simp only [List.not_mem_nil, false_or, mem_sortBy,
    pair_sublist_iff Extent.Precedes.asymm sorted]
  constructor
  · rintro ⟨⟨d, e, hu, hv, he, hlt, hd, _, hb⟩, ho⟩
    exact ⟨d, hd, e, he, hu, hv, hb, hlt, ho⟩
  · rintro ⟨d, hd, e, he, hu, hv, hb, hlt, ho⟩
    exact ⟨⟨d, e, hu, hv, he, hlt, hd, he, hb⟩, ho⟩

theorem extents?_eq_some {live : Liveness} {vs : List Value} {es : List Extent}
    (h : live.extents? vs = some es) :
    es.map Extent.value = vs ∧ ∀ e ∈ es, live.extent e.value = some e.span := by
  induction vs generalizing es with
  | nil =>
    obtain rfl : [] = es := by simpa [extents?] using h
    exact ⟨rfl, by simp⟩
  | cons v vs ih =>
    unfold extents? at h ih
    rw [List.mapM_cons] at h
    obtain ⟨e, he, h⟩ := Option.bind_eq_some_iff.mp h
    obtain ⟨es', hes, h⟩ := Option.bind_eq_some_iff.mp h
    obtain ⟨s, hs, rfl⟩ := Option.map_eq_some_iff.mp he
    obtain rfl : ⟨v, s⟩ :: es' = es := by simpa using h
    obtain ⟨hmap, hext⟩ := ih hes
    refine ⟨by rw [List.map_cons, hmap], ?_⟩
    intro e he
    rcases List.mem_cons.mp he with rfl | he
    · exact hs
    · exact hext e he

/-- The pairs of `vs` that become edges. -/
def linked (live : Liveness) (strategy : BuildStrategy) (vs : List Value) :
    List (Value × Value) :=
  match strategy with
  | .pairwise => live.pairwise vs
  | .sweep =>
    match live.extents? vs with
    | some es => live.sweep es
    | none => live.pairwise vs

theorem mem_of_mem_linked {live : Liveness} {vs : List Value} (strict : vs.Pairwise (· < ·))
    {strategy : BuildStrategy} {u v : Value} (h : (u, v) ∈ live.linked strategy vs) :
    u ∈ vs ∧ v ∈ vs := by
  have hpairwise : (u, v) ∈ live.pairwise vs → u ∈ vs ∧ v ∈ vs := by
    intro h
    obtain ⟨hu, hv, _⟩ := (mem_pairwise strict).mp h
    exact ⟨hu, hv⟩
  cases strategy with
  | pairwise => exact hpairwise h
  | sweep =>
    rw [linked] at h
    cases hes : live.extents? vs with
    | none =>
      rw [hes] at h
      exact hpairwise h
    | some es =>
      rw [hes] at h
      obtain ⟨hmap, _⟩ := extents?_eq_some hes
      have distinct : (es.map Extent.value).Nodup := hmap ▸ nodup_of_strict strict
      obtain ⟨d, hd, e, he, rfl, rfl, _⟩ := (mem_sweep distinct).mp h
      exact ⟨hmap ▸ List.mem_map_of_mem hd, hmap ▸ List.mem_map_of_mem he⟩

/-- Analyses that answer alike when they are asked about values. Which values they list, and which
they allow to be spilled, is left open. -/
structure AnswersAlike (live live' : Liveness) : Prop where
  overlaps : live.overlaps = live'.overlaps
  hasRange : live.hasRange = live'.hasRange
  extent : live.extent = live'.extent

namespace AnswersAlike

variable {live live' : Liveness}

theorem refl (live : Liveness) : live.AnswersAlike live := ⟨rfl, rfl, rfl⟩

/-- Which values are nodes does not depend on the order they are listed or marked in. -/
theorem nodes (h : live.AnswersAlike live') (values : ∀ v, v ∈ live.values ↔ v ∈ live'.values)
    {m n : FiniteSet Value} (marks : ∀ v, v ∈ m ↔ v ∈ n) : live.nodes m = live'.nodes n := by
  apply nodes_eq_of_mem_iff
  intro v
  rw [values, h.hasRange, marks]

theorem pairwise (h : live.AnswersAlike live') (vs : List Value) :
    live.pairwise vs = live'.pairwise vs := by
  rw [Liveness.pairwise, h.overlaps, Liveness.pairwise]

theorem sweep (h : live.AnswersAlike live') (es : List Extent) :
    live.sweep es = live'.sweep es := by
  rw [Liveness.sweep, h.overlaps, Liveness.sweep]

theorem extents? (h : live.AnswersAlike live') (vs : List Value) :
    live.extents? vs = live'.extents? vs := by
  rw [Liveness.extents?, h.extent, Liveness.extents?]

theorem linked (h : live.AnswersAlike live') (strategy : BuildStrategy) (vs : List Value) :
    live.linked strategy vs = live'.linked strategy vs := by
  cases strategy with
  | pairwise => exact h.pairwise vs
  | sweep => simp only [Liveness.linked, h.extents?, h.sweep, h.pairwise]

end AnswersAlike

/-- What the sweep relies on. Overlap does not depend on which value is asked first, and the
extents, where all of `vs` have one, meet wherever two values overlap. -/
structure Faithful (live : Liveness) (vs : List Value) : Prop where
  symmetric : ∀ u v, live.overlaps u v = live.overlaps v u
  hulls : (∀ v ∈ vs, (live.extent v).isSome) → ∀ u ∈ vs, ∀ v ∈ vs, u ≠ v →
    live.overlaps u v = true → ∀ s t, live.extent u = some s → live.extent v = some t →
    s.start < t.stop ∧ t.start < s.stop

variable {live : Liveness} {vs : List Value}

private theorem linked_pairwise_iff (faithful : live.Faithful vs) (strict : vs.Pairwise (· < ·))
    {u v : Value} : ((u, v) ∈ live.pairwise vs ∨ (v, u) ∈ live.pairwise vs) ↔
      u ∈ vs ∧ v ∈ vs ∧ u ≠ v ∧ live.overlaps u v = true := by
  rw [mem_pairwise strict, mem_pairwise strict, faithful.symmetric v u]
  constructor
  · intro hm
    rcases hm with ⟨hu, hv, hlt, ho⟩ | ⟨hv, hu, hlt, ho⟩
    · exact ⟨hu, hv, Std.ne_of_lt hlt, ho⟩
    · exact ⟨hu, hv, (Std.ne_of_lt hlt).symm, ho⟩
  · rintro ⟨hu, hv, hne, ho⟩
    rcases Std.lt_trichotomy u v with hlt | heq | hlt
    · exact .inl ⟨hu, hv, hlt, ho⟩
    · exact absurd heq hne
    · exact .inr ⟨hv, hu, hlt, ho⟩

private theorem linked_sweep_iff (faithful : live.Faithful vs) (strict : vs.Pairwise (· < ·))
    {es : List Extent} (hes : live.extents? vs = some es) {u v : Value} :
    ((u, v) ∈ live.sweep es ∨ (v, u) ∈ live.sweep es) ↔
      u ∈ vs ∧ v ∈ vs ∧ u ≠ v ∧ live.overlaps u v = true := by
  obtain ⟨hmap, hext⟩ := extents?_eq_some hes
  have nodup : vs.Nodup := nodup_of_strict strict
  have distinct : (es.map Extent.value).Nodup := hmap ▸ nodup
  have hvalue : ∀ e ∈ es, e.value ∈ vs := fun e he => hmap ▸ List.mem_map_of_mem he
  have hspan : ∀ w ∈ vs, ∃ e ∈ es, e.value = w := fun w hw => List.mem_map.mp (hmap ▸ hw)
  have hall : ∀ w ∈ vs, (live.extent w).isSome := by
    intro w hw
    obtain ⟨e, he, rfl⟩ := hspan w hw
    rw [hext e he]
    rfl
  rw [mem_sweep distinct, mem_sweep distinct, faithful.symmetric v u]
  constructor
  · have ne_of_precedes : ∀ d e : Extent, d ∈ es → e ∈ es → d.Precedes e → d.value ≠ e.value := by
      intro d e hd he hb heq
      have := List.inj_on_of_nodup_map distinct hd he heq
      subst this
      exact Extent.Precedes.asymm d d hb hb
    intro hm
    rcases hm with ⟨d, hd, e, he, rfl, rfl, hb, _, ho⟩ | ⟨d, hd, e, he, rfl, rfl, hb, _, ho⟩
    · exact ⟨hvalue d hd, hvalue e he, ne_of_precedes d e hd he hb, ho⟩
    · exact ⟨hvalue e he, hvalue d hd, (ne_of_precedes d e hd he hb).symm, ho⟩
  · rintro ⟨hu, hv, hne, ho⟩
    obtain ⟨d, hd, rfl⟩ := hspan u hu
    obtain ⟨e, he, rfl⟩ := hspan v hv
    have hmeet := faithful.hulls hall _ hu _ hv hne ho _ _ (hext d hd) (hext e he)
    rcases Extent.precedes_or_precedes hne with hb | hb
    · exact .inl ⟨d, hd, e, he, rfl, rfl, hb, hmeet.2, ho⟩
    · exact .inr ⟨e, he, d, hd, rfl, rfl, hb, hmeet.1, ho⟩

theorem linked_iff (faithful : live.Faithful vs) (strict : vs.Pairwise (· < ·))
    (strategy : BuildStrategy) {u v : Value} :
    ((u, v) ∈ live.linked strategy vs ∨ (v, u) ∈ live.linked strategy vs) ↔
      u ∈ vs ∧ v ∈ vs ∧ u ≠ v ∧ live.overlaps u v = true := by
  cases strategy with
  | pairwise => exact linked_pairwise_iff faithful strict
  | sweep =>
    cases hes : live.extents? vs with
    | none => simpa only [linked, hes] using linked_pairwise_iff faithful strict
    | some es => simpa only [linked, hes] using linked_sweep_iff faithful strict hes

end Liveness

end RegisterColoring
