import Mathlib.Data.List.Induction
import RegisterColoring.RegisterClass

/-!
Tables of register classes by their histories. Of several classes set for a value the last one
counts, an id stands for the class that got it when it was added, and a reservation keeps a register
out of every class, those that were added or set before it included.
-/

namespace RegisterColoring

namespace RegisterClassTable

/-- A step in the building of a table. -/
inductive Edit where
  | addClass (c : RegisterClass)
  | setClass (v : Value) (id : ClassId)
  | reserve (r : Register)

def edit (t : RegisterClassTable) : Edit → RegisterClassTable
  | .addClass c => t.addClass c
  | .setClass v id => t.setClass v id
  | .reserve r => t.reserve r

def ofEdits (es : List Edit) : RegisterClassTable := es.foldl edit .empty

def Edit.class? : Edit → Option RegisterClass
  | .addClass c => some c
  | _ => none

def classesAdded (es : List Edit) : List RegisterClass := es.filterMap Edit.class?

/-- The number of ids. -/
def classIdCount : Nat := 4294967296

/-- The id was set for the value, and no other one after it. -/
def LastSet (es : List Edit) (v : Value) (id : ClassId) : Prop :=
  ∃ before after, es = before ++ .setClass v id :: after ∧ ∀ id', .setClass v id' ∉ after

/-- The class got the id when it was added. -/
def Issued (es : List Edit) (id : ClassId) (c : RegisterClass) : Prop :=
  ∃ before after, es = before ++ .addClass c :: after ∧ (ofEdits before).nextId = id

variable {es : List Edit} {v : Value} {id : ClassId} {c : RegisterClass} {reg : Register}

theorem ofEdits_concat (es : List Edit) (e : Edit) : ofEdits (es ++ [e]) = (ofEdits es).edit e :=
  List.foldl_append

theorem classesAdded_append (es fs : List Edit) :
    classesAdded (es ++ fs) = classesAdded es ++ classesAdded fs := List.filterMap_append

theorem classes_ofEdits (es : List Edit) : (ofEdits es).classes = classesAdded es := by
  induction es using List.reverseRecOn with
  | nil => rfl
  | append_singleton es e ih =>
    rw [ofEdits_concat, classesAdded_append]
    cases e with
    | addClass c => exact congrArg (· ++ [c]) ih
    | setClass v id => exact ih.trans (List.append_nil _).symm
    | reserve r => exact ih.trans (List.append_nil _).symm

theorem nextId_ofEdits (es : List Edit) :
    (ofEdits es).nextId = ⟨.ofNat (classesAdded es).length⟩ := by
  rw [nextId, classes_ofEdits]

/-- Each class has one addition, with as many additions before it as there are classes before it. -/
theorem getElem?_classesAdded_iff {k : Nat} : (classesAdded es)[k]? = some c ↔
    ∃ before after, es = before ++ .addClass c :: after ∧ (classesAdded before).length = k := by
  constructor
  · intro h
    obtain ⟨hlt, hget⟩ := List.getElem?_eq_some_iff.mp h
    have hsplit : es.filterMap Edit.class? =
        (classesAdded es).take k ++ c :: (classesAdded es).drop (k + 1) := by
      rw [← hget, ← List.drop_eq_getElem_cons hlt, List.take_append_drop, classesAdded]
    obtain ⟨front, back, rfl, hfront, hback⟩ := List.filterMap_eq_append_iff.mp hsplit
    obtain ⟨skipped, e, after, rfl, hskipped, he, _⟩ := List.filterMap_eq_cons_iff.mp hback
    obtain rfl : e = .addClass c := by
      cases e with
      | addClass d => exact congrArg Edit.addClass (Option.some.inj he)
      | setClass => cases he
      | reserve => cases he
    have hnone : classesAdded skipped = [] := List.filterMap_eq_nil_iff.mpr hskipped
    refine ⟨front ++ skipped, after, by rw [List.append_assoc], ?_⟩
    rw [classesAdded_append, hnone, List.append_nil, classesAdded, hfront, List.length_take]
    exact Nat.min_eq_left (Nat.le_of_lt hlt)
  · rintro ⟨before, after, rfl, rfl⟩
    rw [classesAdded_append, List.getElem?_append_right (Nat.le_refl _), Nat.sub_self]
    rfl

/-- As long as there are ids left, a class is found under the id it got. -/
theorem class?_ofEdits_iff (bound : (classesAdded es).length ≤ classIdCount) :
    (ofEdits es).class? id = some c ↔ Issued es id c := by
  rw [class?, classes_ofEdits, getElem?_classesAdded_iff]
  constructor
  · rintro ⟨before, after, hes, hlength⟩
    refine ⟨before, after, hes, ?_⟩
    rw [nextId_ofEdits, hlength, UInt32.ofNat_toNat]
  · rintro ⟨before, after, rfl, rfl⟩
    refine ⟨before, after, rfl, ?_⟩
    rw [classesAdded_append, List.length_append] at bound
    have hlt : (classesAdded before).length < classIdCount := by
      have hlater : (classesAdded (.addClass c :: after)).length =
          (classesAdded after).length + 1 := rfl
      omega
    rw [nextId_ofEdits]
    exact (UInt32.toNat_ofNat_of_lt hlt).symm

theorem classOf?_foldl_edit {after : List Edit} (unset : ∀ id, .setClass v id ∉ after)
    (t : RegisterClassTable) : (after.foldl edit t).classOf? v = t.classOf? v := by
  induction after generalizing t with
  | nil => rfl
  | cons e after ih =>
    rw [List.foldl_cons, ih fun id h => unset id (List.mem_cons_of_mem _ h)]
    cases e with
    | addClass c => rfl
    | reserve r => rfl
    | setClass w id =>
      have hne : v ≠ w := fun h => unset id (h ▸ List.mem_cons_self)
      exact FiniteMap.get?_insert_of_ne t.classOf id hne

theorem classOf?_ofEdits_iff : (ofEdits es).classOf? v = some id ↔ LastSet es v id := by
  constructor
  · intro h
    induction es using List.reverseRecOn with
    | nil => cases h
    | append_singleton es e ih =>
      rw [ofEdits_concat] at h
      by_cases hset : ∃ id', e = .setClass v id'
      · obtain ⟨id', rfl⟩ := hset
        obtain rfl : id' = id :=
          Option.some.inj ((FiniteMap.get?_insert_self _ v id').symm.trans h)
        exact ⟨es, [], rfl, fun _ => List.not_mem_nil⟩
      · have hother : ∀ id', .setClass v id' ∉ [e] :=
          fun id' hmem => hset ⟨id', (List.mem_singleton.mp hmem).symm⟩
        have hkept : ((ofEdits es).edit e).classOf? v = (ofEdits es).classOf? v :=
          classOf?_foldl_edit hother _
        obtain ⟨before, after, rfl, hafter⟩ := ih (hkept ▸ h)
        refine ⟨before, after ++ [e], by simp, ?_⟩
        intro id' hmem
        rcases List.mem_append.mp hmem with hmem | hmem
        · exact hafter id' hmem
        · exact hother id' hmem
  · rintro ⟨before, after, rfl, hafter⟩
    rw [ofEdits, List.foldl_append, List.foldl_cons, classOf?_foldl_edit hafter]
    exact FiniteMap.get?_insert_self _ v id

theorem isReserved_ofEdits_iff : (ofEdits es).isReserved reg = true ↔ .reserve reg ∈ es := by
  rw [isReserved, decide_eq_true_eq]
  induction es using List.reverseRecOn with
  | nil => exact iff_of_false (FiniteSet.not_mem_empty reg) List.not_mem_nil
  | append_singleton es e ih =>
    rw [ofEdits_concat, List.mem_append, List.mem_singleton]
    cases e with
    | addClass c => simpa [edit, addClass] using ih
    | setClass v id => simpa [edit, setClass] using ih
    | reserve r =>
      rw [edit, reserve, FiniteSet.mem_insert, ih, Edit.reserve.injEq]
      exact or_comm

theorem Issued.unique (bound : (classesAdded es).length ≤ classIdCount) (h : Issued es id c)
    {d : RegisterClass} (h' : Issued es id d) : d = c := by
  rw [← class?_ofEdits_iff bound] at h h'
  exact Option.some.inj (h'.symm.trans h)

/-- Only a value whose class exists has candidates. -/
theorem exists_class_of_mem_candidates (bound : (classesAdded es).length ≤ classIdCount)
    (h : reg ∈ (ofEdits es).candidates v) : ∃ id c, LastSet es v id ∧ Issued es id c := by
  unfold candidates at h
  cases hclass : ((ofEdits es).classOf? v).bind (ofEdits es).class? with
  | none =>
    rw [hclass] at h
    cases h
  | some c =>
    obtain ⟨id, hid, hc⟩ := Option.bind_eq_some_iff.mp hclass
    exact ⟨id, c, classOf?_ofEdits_iff.mp hid, (class?_ofEdits_iff bound).mp hc⟩

theorem mem_candidates_iff (bound : (classesAdded es).length ≤ classIdCount)
    (last : LastSet es v id) (issued : Issued es id c) :
    reg ∈ (ofEdits es).candidates v ↔ reg ∈ c.registers ∧ .reserve reg ∉ es := by
  rw [candidates, classOf?_ofEdits_iff.mpr last, Option.bind_some,
    (class?_ofEdits_iff bound).mpr issued]
  simp [← isReserved_ofEdits_iff]

end RegisterClassTable

end RegisterColoring
