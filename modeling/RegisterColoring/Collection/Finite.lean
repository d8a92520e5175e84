import RegisterColoring.Collection.Sorted

/-!
Finite sets and maps. Both are lists in some order, and their order carries no meaning: what is
known of them is said by membership, by look-ups and by ascending lists.
-/

namespace RegisterColoring

/-!
Finite sets that enumerate their elements in some order. The order is real, so that two sets with
the same elements can differ in it, but no answer of the library depends on it: results come from
membership or from the ascending list.
-/

structure FiniteSet (α : Type) where
  elems : List α
  nodup : elems.Nodup

namespace FiniteSet

variable {α : Type}

instance : EmptyCollection (FiniteSet α) := ⟨⟨[], List.nodup_nil⟩⟩
instance : Inhabited (FiniteSet α) := ⟨∅⟩
instance : Membership α (FiniteSet α) := ⟨fun s x => x ∈ s.elems⟩

theorem mem_def {s : FiniteSet α} {x : α} : x ∈ s ↔ x ∈ s.elems := .rfl

@[simp] theorem not_mem_empty (x : α) : ¬ x ∈ (∅ : FiniteSet α) := List.not_mem_nil

def size (s : FiniteSet α) : Nat := s.elems.length

@[simp] theorem size_empty : (∅ : FiniteSet α).size = 0 := rfl

theorem perm_of_mem_iff {s t : FiniteSet α} (h : ∀ x, x ∈ s ↔ x ∈ t) : s.elems.Perm t.elems :=
  (List.perm_ext_iff_of_nodup s.nodup t.nodup).2 h

theorem size_eq_of_mem_iff {s t : FiniteSet α} (h : ∀ x, x ∈ s ↔ x ∈ t) : s.size = t.size :=
  (perm_of_mem_iff h).length_eq

section

variable [DecidableEq α]

instance (x : α) (s : FiniteSet α) : Decidable (x ∈ s) :=
  inferInstanceAs (Decidable (x ∈ s.elems))

def insert (s : FiniteSet α) (x : α) : FiniteSet α :=
  if h : x ∈ s.elems then s else ⟨x :: s.elems, List.nodup_cons.2 ⟨h, s.nodup⟩⟩

@[simp] theorem mem_insert {s : FiniteSet α} {x y : α} : x ∈ s.insert y ↔ x = y ∨ x ∈ s := by
  simp only [insert, mem_def]
  split <;> grind

theorem size_insert (s : FiniteSet α) (x : α) :
    (s.insert x).size = if x ∈ s then s.size else s.size + 1 := by
  simp only [insert, mem_def, size]
  split <;> simp

def erase (s : FiniteSet α) (x : α) : FiniteSet α := ⟨s.elems.erase x, s.nodup.erase x⟩

@[simp] theorem mem_erase {s : FiniteSet α} {x y : α} : x ∈ s.erase y ↔ x ≠ y ∧ x ∈ s :=
  s.nodup.mem_erase_iff

def ofList (xs : List α) : FiniteSet α := xs.foldl insert ∅

@[simp] theorem mem_ofList {xs : List α} {x : α} : x ∈ ofList xs ↔ x ∈ xs := by
  suffices ∀ s : FiniteSet α, x ∈ xs.foldl insert s ↔ x ∈ xs ∨ x ∈ s by
    simpa [ofList] using this ∅
  induction xs with
  | nil => simp
  | cons y ys ih => intro s; simp [ih]; grind

end

section Sorted

variable [LE α] [DecidableLE α]

def sorted (s : FiniteSet α) : List α := ascending s.elems

@[simp] theorem mem_sorted {s : FiniteSet α} {x : α} : x ∈ s.sorted ↔ x ∈ s := mem_ascending

@[simp] theorem length_sorted (s : FiniteSet α) : s.sorted.length = s.size := length_ascending _

theorem sorted_nodup (s : FiniteSet α) : s.sorted.Nodup :=
  (ascending_perm s.elems).symm.nodup s.nodup

theorem sorted_pairwise [Std.IsLinearOrder α] (s : FiniteSet α) : s.sorted.Pairwise (· ≤ ·) :=
  ascending_pairwise s.elems

theorem sorted_strict [Std.IsLinearOrder α] [LT α] [Std.LawfulOrderLT α] (s : FiniteSet α) :
    s.sorted.Pairwise (· < ·) :=
  (s.sorted_pairwise.and s.sorted_nodup).imp fun h => Std.lt_of_le_of_ne h.1 h.2

/-- Sets with the same elements have the same ascending list. -/
theorem sorted_eq_of_mem_iff [Std.IsLinearOrder α] {s t : FiniteSet α}
    (h : ∀ x, x ∈ s ↔ x ∈ t) : s.sorted = t.sorted :=
  ascending_eq_of_perm (perm_of_mem_iff h)

theorem sorted_eq_iff [Std.IsLinearOrder α] {s t : FiniteSet α} :
    s.sorted = t.sorted ↔ ∀ x, x ∈ s ↔ x ∈ t := by
  refine ⟨fun h x => ?_, sorted_eq_of_mem_iff⟩
  rw [← mem_sorted, h, mem_sorted]

end Sorted

end FiniteSet

/-!
Finite maps as lists of entries with distinct keys. As with sets, the order of the entries is real
and carries no meaning; each operation is known by what it does to look-ups.
-/

structure FiniteMap (α β : Type) where
  entries : List (α × β)
  nodup : (entries.map Prod.fst).Nodup

namespace FiniteMap

variable {α β : Type}

instance : EmptyCollection (FiniteMap α β) := ⟨⟨[], List.nodup_nil⟩⟩
instance : Inhabited (FiniteMap α β) := ⟨∅⟩

def size (m : FiniteMap α β) : Nat := m.entries.length

def keys (m : FiniteMap α β) : FiniteSet α := ⟨m.entries.map Prod.fst, m.nodup⟩

def values (m : FiniteMap α β) : List β := m.entries.map Prod.snd

section

variable [DecidableEq α]

def get? (m : FiniteMap α β) (k : α) : Option β := m.entries.lookup k

@[simp] theorem get?_empty (k : α) : (∅ : FiniteMap α β).get? k = none := rfl

private theorem lookup_filter_ne {k k' : α} {es : List (α × β)} (h : k' ≠ k) :
    (es.filter (fun e => e.1 ≠ k)).lookup k' = es.lookup k' := by
  induction es with
  | nil => rfl
  | cons e es ih => grind

/-- Replaces the value of a key that is already there. -/
def insert (m : FiniteMap α β) (k : α) (b : β) : FiniteMap α β where
  entries := (k, b) :: m.entries.filter (fun e => e.1 ≠ k)
  nodup := by
    refine List.nodup_cons.2 ⟨by simp, ?_⟩
    exact List.Pairwise.sublist (List.filter_sublist.map Prod.fst) m.nodup

theorem get?_insert (m : FiniteMap α β) (k k' : α) (b : β) :
    (m.insert k b).get? k' = if k' = k then some b else m.get? k' := by
  have other := @lookup_filter_ne α β _ k k' m.entries
  simp only [get?, insert, List.lookup_cons]
  split <;> grind

@[simp] theorem get?_insert_self (m : FiniteMap α β) (k : α) (b : β) :
    (m.insert k b).get? k = some b := by
  simp [get?_insert]

theorem get?_insert_of_ne (m : FiniteMap α β) {k k' : α} (b : β) (h : k' ≠ k) :
    (m.insert k b).get? k' = m.get? k' := by
  simp [get?_insert, h]

/-- Keeps the value of a key that is already there. -/
def insertIfNew (m : FiniteMap α β) (k : α) (b : β) : FiniteMap α β :=
  if (m.get? k).isSome then m else m.insert k b

theorem get?_insertIfNew (m : FiniteMap α β) (k k' : α) (b : β) :
    (m.insertIfNew k b).get? k' = if k' = k then some ((m.get? k).getD b) else m.get? k' := by
  unfold insertIfNew
  cases h : m.get? k <;> grind [get?_insert]

def ofList (es : List (α × β)) : FiniteMap α β := es.foldl (fun m e => m.insert e.1 e.2) ∅

theorem get?_foldl_insert (f : α → β) (xs : List α) (m : FiniteMap α β) (k : α) :
    (xs.foldl (fun m x => m.insert x (f x)) m).get? k =
      if k ∈ xs then some (f k) else m.get? k := by
  induction xs generalizing m with
  | nil => simp
  | cons x xs ih =>
    rw [List.foldl_cons, ih, get?_insert]
    by_cases hx : k = x
    · simp [hx]
    · simp [hx]

/-- Where no key is repeated, the order of the entries does not matter. -/
theorem get?_ofList_eq_some_iff {es : List (α × β)} (nodup : (es.map Prod.fst).Nodup) {k : α}
    {b : β} : (ofList es).get? k = some b ↔ (k, b) ∈ es := by
  suffices ∀ m : FiniteMap α β, (∀ k ∈ es.map Prod.fst, m.get? k = none) →
      ((es.foldl (fun m e => m.insert e.1 e.2) m).get? k = some b ↔
        (k, b) ∈ es ∨ m.get? k = some b) by
    exact (this ∅ fun _ _ => rfl).trans (or_iff_left (by simp))
  induction es with
  | nil => simp
  | cons e es ih =>
    intro m absent
    obtain ⟨fresh, tail⟩ := List.nodup_cons.mp nodup
    rw [List.foldl_cons, ih tail, get?_insert, List.mem_cons]
    · by_cases hk : k = e.1
      · have hnone := absent k (hk ▸ List.mem_cons_self)
        have hnot : (k, b) ∉ es := fun h => fresh (hk ▸ List.mem_map_of_mem (f := Prod.fst) h)
        simp [hk, Prod.ext_iff, hk ▸ hnone, hk ▸ hnot, eq_comm]
      · simp [hk, Prod.ext_iff]
    · intro k hk
      have hne : k ≠ e.1 := fun h => fresh (h ▸ hk)
      rw [get?_insert_of_ne m e.2 hne]
      exact absent k (List.mem_cons_of_mem _ hk)

theorem mem_keys {m : FiniteMap α β} {k : α} : k ∈ m.keys ↔ (m.get? k).isSome := by
  suffices ∀ es : List (α × β), k ∈ es.map Prod.fst ↔ (es.lookup k).isSome from this m.entries
  intro es
  induction es with
  | nil => simp
  | cons e es ih => grind

theorem mem_entries_iff {m : FiniteMap α β} {k : α} {b : β} :
    (k, b) ∈ m.entries ↔ m.get? k = some b := by
  suffices ∀ es : List (α × β), (es.map Prod.fst).Nodup →
      ((k, b) ∈ es ↔ es.lookup k = some b) from this m.entries m.nodup
  intro es nodup
  induction es with
  | nil => simp
  | cons e es ih =>
    obtain ⟨k', b'⟩ := e
    have fresh : k' ∉ es.map Prod.fst := (List.nodup_cons.1 nodup).1
    have ih := ih (List.nodup_cons.1 nodup).2
    by_cases h : k = k'
    · subst h
      have : (k, b) ∉ es := fun hb => fresh (List.mem_map_of_mem (f := Prod.fst) hb)
      simp [this, eq_comm]
    · grind

end

section Sorted

variable [LE α] [DecidableLE α]

def sortedEntries (m : FiniteMap α β) : List (α × β) :=
  sortBy (fun a b => decide (a.1 ≤ b.1)) m.entries

theorem sortedEntries_perm (m : FiniteMap α β) : m.sortedEntries.Perm m.entries := sortBy_perm _ _

theorem nodup_keys_sortedEntries (m : FiniteMap α β) : (m.sortedEntries.map Prod.fst).Nodup :=
  (m.sortedEntries_perm.map Prod.fst).symm.nodup m.nodup

theorem mem_sortedEntries [DecidableEq α] {m : FiniteMap α β} {k : α} {b : β} :
    (k, b) ∈ m.sortedEntries ↔ m.get? k = some b :=
  mem_sortBy.trans mem_entries_iff

theorem sortedEntries_pairwise [Std.IsLinearOrder α] (m : FiniteMap α β) :
    m.sortedEntries.Pairwise (fun a b => a.1 ≤ b.1) := by
  have total : ∀ a b : α × β, decide (a.1 ≤ b.1) ∨ decide (b.1 ≤ a.1) := by
    intro a b
    simpa using Std.le_total (a := a.1) (b := b.1)
  have trans : ∀ a b c : α × β, decide (a.1 ≤ b.1) → decide (b.1 ≤ c.1) →
      decide (a.1 ≤ c.1) := by
    intro a b c hab hbc
    exact decide_eq_true (Std.le_trans (of_decide_eq_true hab) (of_decide_eq_true hbc))
  simpa [sortedEntries] using sortBy_pairwise total trans m.entries

theorem sortedEntries_strict [Std.IsLinearOrder α] [LT α] [Std.LawfulOrderLT α]
    (m : FiniteMap α β) : (m.sortedEntries.map Prod.fst).Pairwise (· < ·) :=
  ((List.pairwise_map.mpr m.sortedEntries_pairwise).and m.nodup_keys_sortedEntries).imp
    fun h => Std.lt_of_le_of_ne h.1 h.2

/-- The ascending entries are determined by the look-ups alone. -/
theorem sortedEntries_eq_of_get? [DecidableEq α] [Std.IsLinearOrder α] {m m' : FiniteMap α β}
    (h : ∀ k, m.get? k = m'.get? k) : m.sortedEntries = m'.sortedEntries := by
  have same : ∀ e, e ∈ m.sortedEntries ↔ e ∈ m'.sortedEntries := by
    intro e
    rw [mem_sortedEntries, mem_sortedEntries, h]
  have distinct : ∀ n : FiniteMap α β, n.sortedEntries.Nodup := by
    intro n
    exact List.Pairwise.of_map Prod.fst (fun _ _ hne heq => hne (congrArg Prod.fst heq))
      n.nodup_keys_sortedEntries
  refine List.Perm.eq_of_pairwise ?_ m.sortedEntries_pairwise m'.sortedEntries_pairwise
    ((List.perm_ext_iff_of_nodup (distinct m) (distinct m')).mpr same)
  intro a b ha hb hab hba
  have hkey := Std.le_antisymm hab hba
  have hval := (mem_sortedEntries.mp ha).symm.trans
    (hkey ▸ mem_sortedEntries.mp ((same b).mpr hb))
  exact Prod.ext hkey (Option.some.inj hval)

end Sorted

end FiniteMap

end RegisterColoring
