/-!
Stable sorting by insertion. Every list this library enumerates in a fixed order is the
ascending arrangement of a table whose own enumeration order means nothing, so a permutation of
the table never shows.
-/

namespace RegisterColoring

variable {α : Type}

section Key

variable {κ : Type} [LE α] [LE κ]

/-- An order by a key that tells all elements apart is as linear as the order of the keys. -/
theorem isLinearOrder_of_key [Std.IsLinearOrder κ] (key : α → κ)
    (le_iff : ∀ a b : α, a ≤ b ↔ key a ≤ key b) (injective : ∀ a b, key a = key b → a = b) :
    Std.IsLinearOrder α where
  le_refl a := (le_iff a a).mpr (Std.le_refl _)
  le_trans a b c hab hbc := by
    rw [le_iff] at hab hbc ⊢
    exact Std.le_trans hab hbc
  le_antisymm a b hab hba := by
    rw [le_iff] at hab hba
    exact injective a b (Std.le_antisymm hab hba)
  le_total a b := by
    rw [le_iff, le_iff]
    exact Std.le_total

theorem lawfulOrderLT_of_key [LT α] [LT κ] [Std.LawfulOrderLT κ] (key : α → κ)
    (le_iff : ∀ a b : α, a ≤ b ↔ key a ≤ key b) (lt_iff : ∀ a b : α, a < b ↔ key a < key b) :
    Std.LawfulOrderLT α where
  lt_iff a b := by
    rw [lt_iff, le_iff, le_iff]
    exact Std.LawfulOrderLT.lt_iff _ _

end Key

/-- Places `x` before the first element that it may precede. -/
def insertBy (le : α → α → Bool) (x : α) : List α → List α
  | [] => [x]
  | y :: ys => if le x y then x :: y :: ys else y :: insertBy le x ys

/-- Elements that precede each other keep the order they came in. -/
def sortBy (le : α → α → Bool) : List α → List α
  | [] => []
  | x :: xs => insertBy le x (sortBy le xs)

theorem insertBy_perm (le : α → α → Bool) (x : α) (xs : List α) :
    (insertBy le x xs).Perm (x :: xs) := by
  fun_induction insertBy le x xs with
  | case1 => exact .refl _
  | case2 => exact .refl _
  | case3 y ys _ ih => exact (ih.cons y).trans (.swap x y ys)

theorem sortBy_perm (le : α → α → Bool) (xs : List α) : (sortBy le xs).Perm xs := by
  induction xs with
  | nil => exact .refl _
  | cons x xs ih => exact (insertBy_perm le x _).trans (ih.cons x)

@[simp] theorem mem_sortBy {le : α → α → Bool} {x : α} {xs : List α} :
    x ∈ sortBy le xs ↔ x ∈ xs :=
  (sortBy_perm le xs).mem_iff

@[simp] theorem length_sortBy (le : α → α → Bool) (xs : List α) :
    (sortBy le xs).length = xs.length :=
  (sortBy_perm le xs).length_eq

theorem insertBy_pairwise {le : α → α → Bool} (total : ∀ a b, le a b ∨ le b a)
    (trans : ∀ a b c, le a b → le b c → le a c) (x : α) {xs : List α}
    (sorted : xs.Pairwise (le · ·)) : (insertBy le x xs).Pairwise (le · ·) := by
  fun_induction insertBy le x xs with
  | case1 => simp
  | case2 y ys h =>
    refine List.pairwise_cons.2 ⟨fun z hz => ?_, sorted⟩
    rcases List.mem_cons.1 hz with rfl | hz
    · exact h
    · exact trans x y z h ((List.pairwise_cons.1 sorted).1 z hz)
  | case3 y ys h ih =>
    have hyx : le y x := (total x y).resolve_left h
    rw [List.pairwise_cons] at sorted ⊢
    refine ⟨fun z hz => ?_, ih sorted.2⟩
    rcases List.mem_cons.1 ((insertBy_perm le x ys).mem_iff.1 hz) with rfl | hz
    · exact hyx
    · exact sorted.1 z hz

theorem sortBy_pairwise {le : α → α → Bool} (total : ∀ a b, le a b ∨ le b a)
    (trans : ∀ a b c, le a b → le b c → le a c) (xs : List α) :
    (sortBy le xs).Pairwise (le · ·) := by
  induction xs with
  | nil => exact .nil
  | cons x xs ih => exact insertBy_pairwise total trans x ih

/-- Sorting by a key and, where keys are equal, by a name that no two elements share. -/
theorem sortBy_pairwise_lex {κ ν : Type} [LE ν] [LT ν] [Std.IsLinearOrder ν]
    [Std.LawfulOrderLT ν] {le : α → α → Bool} (key : α → κ) (lt : κ → κ → Prop) (name : α → ν)
    (le_iff : ∀ a b, le a b ↔ lt (key a) (key b) ∨ (key a = key b ∧ name a ≤ name b))
    (connected : ∀ j k, lt j k ∨ j = k ∨ lt k j) (trans : ∀ i j k, lt i j → lt j k → lt i k)
    {xs : List α} (distinct : xs.Pairwise (name · ≠ name ·)) :
    (sortBy le xs).Pairwise
      fun a b => lt (key a) (key b) ∨ (key a = key b ∧ name a < name b) := by
  have sorted : (sortBy le xs).Pairwise (le · ·) := by
    apply sortBy_pairwise
    · intro a b
      rw [le_iff, le_iff]
      rcases connected (key a) (key b) with h | h | h
      · exact .inl (.inl h)
      · rcases Std.le_total (a := name a) (b := name b) with hn | hn
        · exact .inl (.inr ⟨h, hn⟩)
        · exact .inr (.inr ⟨h.symm, hn⟩)
      · exact .inr (.inl h)
    · intro a b c hab hbc
      rw [le_iff] at hab hbc ⊢
      rcases hab with hab | ⟨hab, nab⟩
      · rcases hbc with hbc | ⟨hbc, _⟩
        · exact .inl (trans _ _ _ hab hbc)
        · exact .inl (hbc ▸ hab)
      · rcases hbc with hbc | ⟨hbc, nbc⟩
        · exact .inl (hab ▸ hbc)
        · exact .inr ⟨hab.trans hbc, Std.le_trans nab nbc⟩
  have named : (sortBy le xs).Pairwise (name · ≠ name ·) :=
    (sortBy_perm le xs).symm.pairwise distinct Ne.symm
  refine (sorted.and named).imp ?_
  intro a b ⟨hle, hne⟩
  rcases (le_iff a b).mp hle with h | ⟨h, hn⟩
  · exact .inl h
  · exact .inr ⟨h, Std.lt_of_le_of_ne hn hne⟩

/-- In a list in strict order, `x` stands before `y` exactly when it comes first in the order. -/
theorem pair_sublist_iff {r : α → α → Prop} (asymm : ∀ a b, r a b → ¬ r b a) {xs : List α}
    (sorted : xs.Pairwise r) {x y : α} : [x, y].Sublist xs ↔ x ∈ xs ∧ y ∈ xs ∧ r x y := by
  constructor
  · intro h
    refine ⟨h.subset (by simp), h.subset (by simp), ?_⟩
    simpa using sorted.sublist h
  · rintro ⟨hx, hy, hxy⟩
    induction xs with
    | nil => cases hx
    | cons z zs ih =>
      obtain ⟨hz, tail⟩ := List.pairwise_cons.mp sorted
      rcases List.mem_cons.mp hx with rfl | hxs
      · rcases List.mem_cons.mp hy with rfl | hys
        · exact absurd hxy (asymm _ _ hxy)
        · exact (List.singleton_sublist.mpr hys).cons_cons x
      · rcases List.mem_cons.mp hy with rfl | hys
        · exact absurd hxy (asymm _ _ (hz x hxs))
        · exact (ih tail hxs hys).cons z

theorem nodup_of_strict [LE α] [LT α] [Std.IsLinearOrder α] [Std.LawfulOrderLT α] {xs : List α}
    (strict : xs.Pairwise (· < ·)) : xs.Nodup := strict.imp fun h => Std.ne_of_lt h

/-- Strictly ascending lists with the same elements are equal. -/
theorem eq_of_strict_of_mem_iff [LE α] [LT α] [Std.IsLinearOrder α] [Std.LawfulOrderLT α]
    {xs ys : List α} (hxs : xs.Pairwise (· < ·)) (hys : ys.Pairwise (· < ·))
    (same : ∀ x, x ∈ xs ↔ x ∈ ys) : xs = ys := by
  have perm : xs.Perm ys :=
    (List.perm_ext_iff_of_nodup (nodup_of_strict hxs) (nodup_of_strict hys)).mpr same
  refine perm.eq_of_pairwise ?_ hxs hys
  intro a b _ _ hab hba
  exact absurd hba (Std.not_gt_of_lt hab)

section Ascending

variable [LE α] [DecidableLE α]

def ascending (xs : List α) : List α := sortBy (fun a b => decide (a ≤ b)) xs

theorem ascending_perm (xs : List α) : (ascending xs).Perm xs := sortBy_perm _ xs

@[simp] theorem mem_ascending {x : α} {xs : List α} : x ∈ ascending xs ↔ x ∈ xs := mem_sortBy

@[simp] theorem length_ascending (xs : List α) : (ascending xs).length = xs.length :=
  length_sortBy _ xs

theorem ascending_pairwise [Std.IsLinearOrder α] (xs : List α) :
    (ascending xs).Pairwise (· ≤ ·) := by
  have total : ∀ a b : α, decide (a ≤ b) ∨ decide (b ≤ a) := by grind
  have trans : ∀ a b c : α, decide (a ≤ b) → decide (b ≤ c) → decide (a ≤ c) := by grind
  simpa [ascending] using sortBy_pairwise total trans xs

/-- The ascending list is determined by the elements alone. -/
theorem ascending_eq_of_perm [Std.IsLinearOrder α] {xs ys : List α} (h : xs.Perm ys) :
    ascending xs = ascending ys :=
  List.Perm.eq_of_pairwise (fun _ _ _ _ => by grind) (ascending_pairwise xs)
    (ascending_pairwise ys) ((ascending_perm xs).trans (h.trans (ascending_perm ys).symm))

end Ascending

end RegisterColoring
