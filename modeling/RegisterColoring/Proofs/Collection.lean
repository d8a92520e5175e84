import Mathlib.Order.Bounds.Basic
import RegisterColoring.Collection.Finite

/-!
Ascending lists: the first hit in one of them, and what becomes of them under a map that keeps the
order.
-/

namespace RegisterColoring

/-!
First hits. In a list that ascends strictly, the first element with a property is the least one, and
those before it are the smaller ones.
-/

section Least

variable {α β κ : Type} [LE κ] [LT κ] [Std.LawfulOrderLT κ]

/-- The elements before the first hit are the smaller ones. -/
theorem mem_takeWhile_iff_lt {xs : List κ} (strict : xs.Pairwise (· < ·)) {q : κ → Bool} {x y : κ}
    (hit : xs.find? q = some x) : y ∈ xs.takeWhile (fun z => !q z) ↔ y ∈ xs ∧ y < x := by
  obtain ⟨hq, before, after, rfl, hbefore⟩ := List.find?_eq_some_iff_append.mp hit
  obtain ⟨_, htail, hcross⟩ := List.pairwise_append.mp strict
  have hstop : (x :: after).takeWhile (fun z => !q z) = [] := by simp [hq]
  rw [List.takeWhile_append_of_pos hbefore, hstop, List.append_nil]
  constructor
  · exact fun hy => ⟨List.mem_append_left _ hy, hcross y hy x List.mem_cons_self⟩
  · rintro ⟨hy, hlt⟩
    rcases List.mem_append.mp hy with hy | hy
    · exact hy
    · rcases List.mem_cons.mp hy with rfl | hy
      · exact absurd hlt Std.lt_irrefl
      · exact absurd hlt (Std.not_gt_of_lt ((List.pairwise_cons.mp htail).1 y hy))

variable [Std.IsLinearOrder κ]

/-- In a list with strictly ascending keys the first hit is the one with the least key. -/
theorem findSome?_eq_some_iff_of_strict {xs : List α} {key : α → κ}
    (strict : xs.Pairwise (key · < key ·)) {f : α → Option β} {b : β} :
    xs.findSome? f = some b ↔
      ∃ x ∈ xs, f x = some b ∧ ∀ y ∈ xs, (f y).isSome = true → key x ≤ key y := by
  rw [List.findSome?_eq_some_iff]
  constructor
  · rintro ⟨before, x, after, rfl, hx, hbefore⟩
    refine ⟨x, by simp, hx, ?_⟩
    intro y hy hsome
    have hafter := (List.pairwise_cons.mp (List.pairwise_append.mp strict).2.1).1
    rcases List.mem_append.mp hy with hy | hy
    · rw [hbefore y hy] at hsome
      cases hsome
    · rcases List.mem_cons.mp hy with rfl | hy
      · exact Std.le_refl _
      · exact Std.le_of_lt (hafter y hy)
  · rintro ⟨x, hmem, hx, least⟩
    obtain ⟨before, after, rfl⟩ := List.append_of_mem hmem
    refine ⟨before, x, after, rfl, hx, ?_⟩
    intro y hy
    by_contra hsome
    have hle := least y (List.mem_append_left _ hy) (Option.isSome_iff_ne_none.mpr hsome)
    have hlt := (List.pairwise_append.mp strict).2.2 y hy x List.mem_cons_self
    exact Std.not_le.mpr hlt hle

theorem find?_eq_some_iff_isLeast {xs : List κ} (strict : xs.Pairwise (· < ·)) {q : κ → Bool}
    {x : κ} : xs.find? q = some x ↔ IsLeast {y | y ∈ xs ∧ q y = true} x := by
  rw [List.find?_eq_findSome?_guard, findSome?_eq_some_iff_of_strict strict]
  simp only [IsLeast, lowerBounds, Set.mem_ofPred_eq, Option.isSome_guard, Option.guard_eq_some_iff]
  constructor
  · rintro ⟨y, hy, ⟨rfl, hq⟩, least⟩
    exact ⟨⟨hy, hq⟩, fun z hz => least z hz.1 hz.2⟩
  · rintro ⟨⟨hx, hq⟩, least⟩
    exact ⟨x, hx, ⟨rfl, hq⟩, fun z hz hqz => least ⟨hz, hqz⟩⟩

/-- Where a single element can be a hit, it does not matter where it stands. -/
theorem findSome?_eq_some_of_only {f : α → Option β} {xs : List α} {x : α} {b : β} (hx : x ∈ xs)
    (hit : f x = some b) (only : ∀ y ∈ xs, y ≠ x → f y = none) : xs.findSome? f = some b := by
  cases hfirst : xs.findSome? f with
  | none =>
    rw [List.findSome?_eq_none_iff.mp hfirst x hx] at hit
    cases hit
  | some c =>
    obtain ⟨y, hy, hc⟩ := List.exists_of_findSome?_eq_some hfirst
    have heq : y = x := by
      by_contra hne
      rw [only y hy hne] at hc
      cases hc
    rw [← hc, heq, hit]

end Least

/-!
Renamings. A map that keeps the strict order of the elements that occur keeps all that is read off
that order: which elements are equal, which one is the least, and their ascending list.
-/

/-- A map that keeps the strict order of the elements of `s`. What it does to others is left
open. -/
structure Renaming {α : Type} [LT α] (s : Set α) where
  map : α → α
  increases : ∀ x ∈ s, ∀ y ∈ s, x < y → map x < map y

instance {α : Type} [LT α] {s : Set α} : CoeFun (Renaming s) fun _ => α → α := ⟨Renaming.map⟩

section Map

variable {α β : Type} {f : α → β} {le : α → α → Bool} {le' : β → β → Bool} {q : α → Bool}
  {q' : β → Bool}

theorem insertBy_map {x : α} {ys : List α} (same : ∀ y ∈ ys, le' (f x) (f y) = le x y) :
    insertBy le' (f x) (ys.map f) = (insertBy le x ys).map f := by
  induction ys with
  | nil => rfl
  | cons y ys ih =>
    rw [List.map_cons, insertBy, insertBy, same y List.mem_cons_self,
      ih fun z hz => same z (List.mem_cons_of_mem _ hz)]
    split <;> rfl

/-- A sort compares nothing but elements of its list. -/
theorem sortBy_map {xs : List α} (same : ∀ x ∈ xs, ∀ y ∈ xs, le' (f x) (f y) = le x y) :
    sortBy le' (xs.map f) = (sortBy le xs).map f := by
  induction xs with
  | nil => rfl
  | cons x xs ih =>
    have tail : ∀ y ∈ xs, ∀ z ∈ xs, le' (f y) (f z) = le y z :=
      fun y hy z hz => same y (List.mem_cons_of_mem _ hy) z (List.mem_cons_of_mem _ hz)
    have head : ∀ y ∈ sortBy le xs, le' (f x) (f y) = le x y :=
      fun y hy => same x List.mem_cons_self y (List.mem_cons_of_mem _ (mem_sortBy.mp hy))
    rw [List.map_cons, sortBy, sortBy, ih tail, insertBy_map head]

theorem takeWhile_map {xs : List α} (same : ∀ x ∈ xs, q' (f x) = q x) :
    (xs.map f).takeWhile q' = (xs.takeWhile q).map f := by
  induction xs with
  | nil => rfl
  | cons x xs ih =>
    have tail := ih fun y hy => same y (List.mem_cons_of_mem _ hy)
    rw [List.map_cons, List.takeWhile_cons, List.takeWhile_cons, same x List.mem_cons_self, tail]
    split <;> rfl

theorem rotateLeft_map (f : α → β) (xs : List α) (k : Nat) :
    (xs.map f).rotateLeft k = (xs.rotateLeft k).map f := by
  unfold List.rotateLeft
  rw [List.length_map]
  dsimp only
  split
  · rfl
  · rw [List.map_append, List.map_drop, List.map_take]

end Map

/-- The set `t` holds the images of the elements of `s`. -/
def FiniteSet.Renamed {α β : Type} (f : α → β) (s : FiniteSet α) (t : FiniteSet β) : Prop :=
  ∀ y, y ∈ t ↔ ∃ x ∈ s, f x = y

theorem FiniteSet.Renamed.empty {α β : Type} (f : α → β) :
    (∅ : FiniteSet α).Renamed f (∅ : FiniteSet β) := by
  intro y
  refine iff_of_false (not_mem_empty y) ?_
  rintro ⟨x, hx, _⟩
  exact not_mem_empty x hx

theorem FiniteSet.Renamed.insert {α β : Type} [DecidableEq α] [DecidableEq β] {f : α → β}
    {s : FiniteSet α} {t : FiniteSet β} (h : s.Renamed f t) (x : α) :
    (s.insert x).Renamed f (t.insert (f x)) := by
  intro y
  rw [mem_insert, h]
  simp only [mem_insert, or_and_right, exists_or, exists_eq_left]
  exact or_congr_left eq_comm

/-- The entries of `n` are those of `m` with their keys renamed by `f` and their values by `h`. -/
def FiniteMap.Renamed {α β γ δ : Type} [DecidableEq α] [DecidableEq γ] (f : α → γ) (h : β → δ)
    (m : FiniteMap α β) (n : FiniteMap γ δ) : Prop :=
  ∀ k d, n.get? k = some d ↔ ∃ j b, m.get? j = some b ∧ f j = k ∧ h b = d

namespace Renaming

theorem pairwise_map {α : Type} [LT α] {s : Set α} (f : Renaming s) {xs : List α}
    (occur : ∀ z ∈ xs, z ∈ s) (strict : xs.Pairwise (· < ·)) : (xs.map f).Pairwise (· < ·) := by
  apply List.pairwise_map.mpr
  exact strict.imp_of_mem fun hy hz hlt => f.increases _ (occur _ hy) _ (occur _ hz) hlt

variable {α : Type} [LE α] [LT α] [Std.IsLinearOrder α] [Std.LawfulOrderLT α] {s : Set α}
  (f : Renaming s) {x y : α}

theorem eq_iff (hx : x ∈ s) (hy : y ∈ s) : f x = f y ↔ x = y := by
  constructor
  · intro heq
    rcases Std.lt_trichotomy x y with hlt | h | hlt
    · exact absurd heq (Std.ne_of_lt (f.increases x hx y hy hlt))
    · exact h
    · exact absurd heq.symm (Std.ne_of_lt (f.increases y hy x hx hlt))
  · exact congrArg f.map

theorem lt_iff (hx : x ∈ s) (hy : y ∈ s) : f x < f y ↔ x < y := by
  constructor
  · intro hlt
    rcases Std.lt_trichotomy x y with h | h | h
    · exact h
    · exact absurd hlt (h ▸ Std.lt_irrefl)
    · exact absurd hlt (Std.not_gt_of_lt (f.increases y hy x hx h))
  · exact f.increases x hx y hy

theorem le_iff (hx : x ∈ s) (hy : y ∈ s) : f x ≤ f y ↔ x ≤ y := by
  rw [← Std.not_lt, f.lt_iff hy hx, Std.not_lt]

theorem isLeast_image {t : Set α} (occur : t ⊆ s) (least : IsLeast t x) :
    IsLeast (f.map '' t) (f x) := by
  refine ⟨⟨x, least.1, rfl⟩, ?_⟩
  rintro _ ⟨y, hy, rfl⟩
  exact (f.le_iff (occur least.1) (occur hy)).mpr (least.2 hy)

theorem mem_map_iff {xs : List α} (occur : ∀ z ∈ xs, z ∈ s) (hx : x ∈ s) :
    f x ∈ xs.map f ↔ x ∈ xs := by
  constructor
  · intro h
    obtain ⟨z, hz, heq⟩ := List.mem_map.mp h
    rwa [(f.eq_iff (occur z hz) hx).mp heq] at hz
  · exact List.mem_map_of_mem

section Sets

variable {us vs : FiniteSet α} (occur : ∀ z ∈ us, z ∈ s) (renamed : us.Renamed f vs)

include occur renamed

theorem mem_renamed_iff (hx : x ∈ s) : f x ∈ vs ↔ x ∈ us := by
  rw [renamed]
  constructor
  · rintro ⟨z, hz, heq⟩
    rwa [(f.eq_iff (occur z hz) hx).mp heq] at hz
  · exact fun h => ⟨x, h, rfl⟩

variable [DecidableLE α]

theorem sorted_renamed : vs.sorted = us.sorted.map f := by
  have strict : (us.sorted.map f).Pairwise (· < ·) :=
    f.pairwise_map (fun z hz => occur z (FiniteSet.mem_sorted.mp hz)) us.sorted_strict
  apply eq_of_strict_of_mem_iff vs.sorted_strict strict
  intro y
  rw [FiniteSet.mem_sorted, renamed, List.mem_map]
  simp only [FiniteSet.mem_sorted]

theorem size_renamed : vs.size = us.size := by
  rw [← FiniteSet.length_sorted, f.sorted_renamed occur renamed, List.length_map,
    FiniteSet.length_sorted]

end Sets

theorem sorted_ofList_map [DecidableEq α] [DecidableLE α] {xs : List α}
    (occur : ∀ z ∈ xs, z ∈ s) :
    (FiniteSet.ofList (xs.map f)).sorted = (FiniteSet.ofList xs).sorted.map f := by
  apply f.sorted_renamed (fun z hz => occur z (FiniteSet.mem_ofList.mp hz))
  intro y
  simp only [FiniteSet.mem_ofList, List.mem_map]

end Renaming

end RegisterColoring
