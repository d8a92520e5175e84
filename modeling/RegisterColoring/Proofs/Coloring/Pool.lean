import Mathlib.Data.List.Induction
import Mathlib.Data.List.Nodup
import Mathlib.Data.List.Perm.Subperm
import RegisterColoring.Proofs.Coloring.Proper

/-!
The extended colors of a coloring pass: for which nodes they are created, how many of them there
are, and which numbers they have.
-/

namespace RegisterColoring

/-!
What the colors at the end of a pass say about the moments they were given. A pass that takes each
node once never changes a color, so what a node saw are the final colors of the nodes before it.
-/

/-- Distinct things have distinct holders. -/
theorem length_le_of_held {α β : Type} {xs : List α} {holders : List β} (holds : β → Option α)
    (nodup : xs.Nodup) (held : ∀ x ∈ xs, ∃ b ∈ holders, holds b = some x) :
    xs.length ≤ holders.length := by
  have hsub : xs ⊆ holders.filterMap holds := by
    intro x hx
    exact List.mem_filterMap.mpr (held x hx)
  calc xs.length
      ≤ (holders.filterMap holds).length := (List.subperm_of_subset nodup hsub).length_le
    _ ≤ holders.length := List.length_filterMap_le _ _

namespace Round

variable {r : Round}

/-- The color of a node is the one chosen when the nodes before it were colored. -/
theorem color?_colorAll_split {pre post : List Value} {v : Value} (once : v ∉ post) :
    (r.colorAll (pre ++ v :: post)).color? v = some ((r.colorAll pre).selectColor v).1 := by
  rw [colorAll_append, colorAll_cons, color?_colorAll_of_not_mem _ once, color?_colorNode_self]

theorem color?_colorAll_of_mem_init {pre post : List Value} {n : Value}
    (nodup : (pre ++ post).Nodup) (h : n ∈ pre) :
    (r.colorAll (pre ++ post)).color? n = (r.colorAll pre).color? n := by
  have hpost : n ∉ post := fun hn => (List.nodup_append.mp nodup).2.2 n h n hn rfl
  rw [colorAll_append, color?_colorAll_of_not_mem _ hpost]

theorem mem_of_color?_colorAll (uncolored : r.Uncolored) {vs : List Value} {n : Value} {c : Color}
    (h : (r.colorAll vs).color? n = some c) : n ∈ vs := by
  by_contra hn
  rw [color?_colorAll_of_not_mem r hn, uncolored.color?_eq] at h
  cases h

theorem mem_of_resolved?_colorAll (uncolored : r.Uncolored) {vs : List Value} {n : Value}
    {reg : Register} (h : (r.colorAll vs).resolved? n = some reg) : n ∈ vs := by
  obtain ⟨index, hcolor, _⟩ := resolved?_eq_some_iff.mp h
  exact mem_of_color?_colorAll uncolored hcolor

/-- A register seen during the pass is the final register of a node that was colored before. -/
theorem resolved?_colorAll_init_iff (uncolored : r.Uncolored) {pre post : List Value}
    (nodup : (pre ++ post).Nodup) {n : Value} {reg : Register} :
    (r.colorAll pre).resolved? n = some reg ↔
      n ∈ pre ∧ (r.colorAll (pre ++ post)).resolved? n = some reg := by
  have final : n ∈ pre → (r.colorAll (pre ++ post)).resolved? n = (r.colorAll pre).resolved? n := by
    intro hn
    refine resolved?_congr (color?_colorAll_of_mem_init nodup hn) ?_
    rw [(r.colorAll_sameProblem _).candidatesOf, (r.colorAll_sameProblem _).candidatesOf]
  constructor
  · intro h
    have hn := mem_of_resolved?_colorAll uncolored h
    exact ⟨hn, (final hn).trans h⟩
  · rintro ⟨hn, h⟩
    exact (final hn).symm.trans h

/-- A node runs out of registers exactly when nodes before it hold all its candidates. -/
theorem isExtended_colorAll_iff (uncolored : r.Uncolored) {order : List Value}
    (sorted : order.Pairwise r.graph.Precedes) {v : Value} (hv : v ∈ order) :
    (∃ id, (r.colorAll order).color? v = some (.extended id)) ↔
      ∀ reg ∈ r.candidatesOf v, ∃ n ∈ r.graph.neighbors v,
        r.graph.Precedes n v ∧ (r.colorAll order).resolved? n = some reg := by
  have nodup := Graph.nodup_of_pairwise_precedes sorted
  obtain ⟨pre, post, rfl⟩ := List.append_of_mem hv
  have same := r.colorAll_sameProblem pre
  have once : v ∉ post := (List.nodup_cons.mp (List.nodup_append.mp nodup).2.1).1
  obtain ⟨_, hpost, hpre⟩ := List.pairwise_append.mp sorted
  -- the nodes before `v` in the list are the ones that precede it
  have before : ∀ n reg, (r.colorAll pre).resolved? n = some reg ↔
      r.graph.Precedes n v ∧ (r.colorAll (pre ++ v :: post)).resolved? n = some reg := by
    intro n reg
    rw [resolved?_colorAll_init_iff uncolored nodup]
    refine and_congr_left fun h => ⟨fun hn => hpre n hn v List.mem_cons_self, fun hprec => ?_⟩
    rcases List.mem_append.mp (mem_of_resolved?_colorAll uncolored h) with hn | hn
    · exact hn
    · rcases List.mem_cons.mp hn with rfl | hn
      · exact absurd hprec (r.graph.not_precedes_self n)
      · exact absurd hprec ((List.pairwise_cons.mp hpost).1 n hn).asymm
  rw [color?_colorAll_split once]
  simp only [Option.some.injEq]
  rw [selectColor_isExtended_iff, freeIndices_eq_nil_iff, same.candidatesOf]
  simp only [mem_takenRegisters, same.graph, before]

/-- The neighbors that were colored before `v` and hold a register. -/
def earlierHolders (r : Round) (v : Value) : List Value :=
  (r.graph.neighbors v).elems.filter fun n =>
    decide (r.graph.Precedes n v) && (r.resolved? n).isSome

theorem mem_earlierHolders {v n : Value} : n ∈ r.earlierHolders v ↔
    n ∈ r.graph.neighbors v ∧ r.graph.Precedes n v ∧ (r.resolved? n).isSome := by
  simp [earlierHolders, FiniteSet.mem_def]

theorem length_earlierHolders_le (r : Round) (v : Value) :
    (r.earlierHolders v).length ≤ (r.graph.neighbors v).size := List.length_filter_le _ _

theorem length_candidates_le_earlierHolders {v : Value} (nodup : (r.candidatesOf v).Nodup)
    (held : ∀ reg ∈ r.candidatesOf v, ∃ n ∈ r.graph.neighbors v,
      r.graph.Precedes n v ∧ r.resolved? n = some reg) :
    (r.candidatesOf v).length ≤ (r.earlierHolders v).length := by
  apply length_le_of_held r.resolved? nodup
  intro reg hreg
  obtain ⟨n, hn, hprec, hres⟩ := held reg hreg
  exact ⟨n, mem_earlierHolders.mpr ⟨hn, hprec, Option.isSome_of_eq_some hres⟩, hres⟩

/-- Every extended color of the pool is held by the node it was created for. -/
theorem held_of_mem_pool (uncolored : r.Uncolored) {order : List Value} (nodup : order.Nodup)
    {id : Int32} (h : id ∈ (r.colorAll order).pool) :
    ∃ v ∈ order, (r.colorAll order).color? v = some (.extended id) := by
  induction order using List.reverseRecOn with
  | nil =>
    have hpool : (r.colorAll []).pool = [] := uncolored.pool
    rw [hpool] at h
    cases h
  | append_singleton order v ih =>
    obtain ⟨hnodup, _, hdisjoint⟩ := List.nodup_append.mp nodup
    have earlier : id ∈ (r.colorAll order).pool → ∃ w ∈ order ++ [v],
        (r.colorAll (order ++ [v])).color? w = some (.extended id) := by
      intro hid
      obtain ⟨w, hw, hcolor⟩ := ih hnodup hid
      have hne : w ≠ v := hdisjoint w hw v List.mem_cons_self
      refine ⟨w, List.mem_append_left _ hw, ?_⟩
      rw [colorAll_concat, color?_colorNode_of_ne _ hne, hcolor]
    rw [colorAll_concat] at h
    rcases (r.colorAll order).pool_colorNode_cases v with hpool | ⟨hpool, hnew⟩ <;>
      rw [hpool] at h
    · exact earlier h
    · rcases List.mem_append.mp h with h | h
      · exact earlier h
      · refine ⟨v, List.mem_append_right _ List.mem_cons_self, ?_⟩
        rw [colorAll_concat, hnew, List.mem_singleton.mp h]

end Round

/-!
The pool of extended colors over a coloring pass. A step adds to the pool exactly when neither a
candidate nor an extended color of the pool is free for its node, so the newest color tells of a
node that met all the others among its neighbors. Where extended colors are not shared, the pool
counts the nodes that were left without a register.
-/

theorem nodup_extendedIds {k : Nat} (h : k ≤ idCount) : (extendedIds k).Nodup := by
  induction k with
  | zero => exact List.nodup_nil
  | succ k ih =>
    rw [extendedIds_succ, ← List.concat_eq_append]
    exact (ih (by omega)).concat (ofInt_not_mem_extendedIds h)

namespace Round

variable {r : Round}

theorem pool_colorNode_eq (r : Round) (v : Value) : (r.colorNode v).pool =
    if r.freeIndices v = [] ∧ r.freeExtended v = [] then r.pool ++ [r.nextExtended]
    else r.pool := by
  rw [pool_colorNode]
  have h := r.selects_selectColor v
  generalize r.selectColor v = choice at h
  obtain ⟨c, s⟩ := choice
  cases h with
  | candidate index reg g place free =>
    have hfree : r.freeIndices v ≠ [] :=
      List.ne_nil_of_mem (mem_freeIndices.mpr ⟨reg, place, free⟩)
    rw [if_neg fun h => hfree h.1]
  | shared id g exhausted free => rw [if_neg fun h => List.ne_nil_of_mem free h.2]
  | created exhausted none => exact (if_pos ⟨exhausted, none⟩).symm

theorem color?_colorNode_of_created {v : Value} (exhausted : r.freeIndices v = [])
    (none : r.freeExtended v = []) :
    (r.colorNode v).color? v = some (.extended r.nextExtended) := by
  have hpool := r.pool_colorNode_eq v
  rw [if_pos ⟨exhausted, none⟩] at hpool
  rcases r.pool_colorNode_cases v with h | ⟨_, h⟩
  · rw [hpool] at h
    exact absurd h (by simp)
  · exact h

/-- From an empty pool on, a pass creates the ids below zero in their order. -/
theorem pool_colorAll_eq {k : Nat} (h : r.pool = extendedIds k) (vs : List Value) :
    ∃ l ≤ k + vs.length, (r.colorAll vs).pool = extendedIds l := by
  induction vs generalizing r k with
  | nil => exact ⟨k, Nat.le_refl _, h⟩
  | cons v vs ih =>
    rw [colorAll_cons, List.length_cons]
    rcases r.pool_colorNode_cases v with hpool | ⟨hpool, _⟩
    · obtain ⟨l, hl, hids⟩ := ih (hpool.trans h)
      exact ⟨l, by omega, hids⟩
    · rw [nextExtended_eq h, h, ← extendedIds_succ] at hpool
      obtain ⟨l, hl, hids⟩ := ih hpool
      exact ⟨l, by omega, hids⟩

theorem nodup_pool_colorAll (uncolored : r.Uncolored) {vs : List Value}
    (room : vs.length ≤ idCount) : (r.colorAll vs).pool.Nodup := by
  obtain ⟨l, hl, hids⟩ := pool_colorAll_eq (k := 0) uncolored.pool vs
  rw [hids]
  exact nodup_extendedIds (by omega)

/-- The newest color was created for a node that had no other choice. -/
theorem exists_last_creation (uncolored : r.Uncolored) {order : List Value}
    (h : (r.colorAll order).pool ≠ []) : ∃ pre v post, order = pre ++ v :: post ∧
      (r.colorAll pre).freeIndices v = [] ∧ (r.colorAll pre).freeExtended v = [] ∧
      (r.colorAll order).pool = (r.colorAll pre).pool ++ [(r.colorAll pre).nextExtended] := by
  induction order using List.reverseRecOn with
  | nil => exact absurd uncolored.pool h
  | append_singleton order v ih =>
    rw [colorAll_concat, pool_colorNode_eq] at h ⊢
    by_cases hnew : (r.colorAll order).freeIndices v = [] ∧ (r.colorAll order).freeExtended v = []
    · rw [if_pos hnew]
      exact ⟨order, v, [], rfl, hnew.1, hnew.2, rfl⟩
    · rw [if_neg hnew] at h ⊢
      obtain ⟨pre, w, post, rfl, hfree⟩ := ih h
      exact ⟨pre, w, post ++ [v], by rw [List.append_assoc, List.cons_append], hfree⟩

/-- An extended color seen during the pass is the final one of a node that was colored before. -/
theorem color?_colorAll_init {pre post : List Value} (uncolored : r.Uncolored)
    (nodup : (pre ++ post).Nodup) {n : Value} {c : Color}
    (h : (r.colorAll pre).color? n = some c) :
    n ∈ pre ∧ (r.colorAll (pre ++ post)).color? n = some c := by
  have hn := mem_of_color?_colorAll uncolored h
  exact ⟨hn, (color?_colorAll_of_mem_init nodup hn).trans h⟩

/-- The node `v` found each of its candidates and each extended color but the newest, which it got
itself, with a neighbor colored before it. -/
structure CrowdedOut (r : Round) (v : Value) : Prop where
  color : r.color? v = r.pool.getLast?.map .extended
  registers : ∀ reg ∈ r.candidatesOf v, ∃ n ∈ r.graph.neighbors v,
    r.graph.Precedes n v ∧ r.resolved? n = some reg
  extended : ∀ id ∈ r.pool.dropLast, ∃ n ∈ r.graph.neighbors v,
    r.graph.Precedes n v ∧ r.color? n = some (.extended id)

theorem exists_crowdedOut (uncolored : r.Uncolored) (shared : r.config.exhaustion = .extend)
    {order : List Value} (sorted : order.Pairwise r.graph.Precedes)
    (h : (r.colorAll order).pool ≠ []) : ∃ v ∈ order, (r.colorAll order).CrowdedOut v := by
  obtain ⟨pre, v, post, rfl, hindices, hextended, hpool⟩ := exists_last_creation uncolored h
  have nodup := Graph.nodup_of_pairwise_precedes sorted
  have once : v ∉ post := (List.nodup_cons.mp (List.nodup_append.mp nodup).2.1).1
  have before : ∀ n ∈ pre, r.graph.Precedes n v :=
    fun n hn => (List.pairwise_append.mp sorted).2.2 n hn v List.mem_cons_self
  have hv : v ∈ pre ++ v :: post := List.mem_append_right _ List.mem_cons_self
  have same := r.colorAll_sameProblem pre
  have final := r.colorAll_sameProblem (pre ++ v :: post)
  have hcolor : (r.colorAll (pre ++ v :: post)).color? v =
      some (.extended (r.colorAll pre).nextExtended) := by
    rw [color?_colorAll_split once, ← color?_colorNode_self]
    exact color?_colorNode_of_created hindices hextended
  refine ⟨v, hv, ?_, ?_, ?_⟩
  · rw [hcolor, hpool, List.getLast?_concat]
    rfl
  · rw [final.candidatesOf, final.graph]
    exact (isExtended_colorAll_iff uncolored sorted hv).mp ⟨_, hcolor⟩
  · intro id hid
    rw [hpool, List.dropLast_concat] at hid
    have htaken : id ∈ (r.colorAll pre).takenExtended v := by
      by_contra hfree
      have hmem := mem_freeExtended.mpr ⟨same.config ▸ shared, hid, hfree⟩
      rw [hextended] at hmem
      cases hmem
    obtain ⟨n, hn, hnid⟩ := mem_takenExtended.mp htaken
    obtain ⟨hpre, hnfinal⟩ := color?_colorAll_init uncolored nodup hnid
    rw [same.graph] at hn
    rw [final.graph]
    exact ⟨n, hn, before n hpre, hnfinal⟩

/-- What the color of a value keeps its neighbors from having. -/
def kept? (r : Round) (v : Value) : Option (Register ⊕ Int32) :=
  ((r.resolved? v).map .inl).or (((r.color? v).bind Color.extendedId?).map .inr)

theorem kept?_of_resolved {v : Value} {reg : Register} (h : r.resolved? v = some reg) :
    r.kept? v = some (.inl reg) := by
  rw [kept?, h]
  rfl

theorem kept?_of_extended {v : Value} {id : Int32} (h : r.color? v = some (.extended id)) :
    r.kept? v = some (.inr id) := by
  simp [kept?, resolved?, h, Color.extendedId?]

/-- A node that is crowded out has a neighbor for each candidate and one for each older color. -/
theorem CrowdedOut.length_le {v : Value} (crowded : r.CrowdedOut v)
    (candidates : (r.candidatesOf v).Nodup) (pool : r.pool.Nodup) :
    r.pool.length + (r.candidatesOf v).length ≤ (r.graph.neighbors v).size + 1 := by
  have nodup : ((r.candidatesOf v).map Sum.inl ++
      r.pool.dropLast.map (Sum.inr : Int32 → Register ⊕ Int32)).Nodup := by
    refine List.nodup_append.mpr ⟨?_, ?_, ?_⟩
    · exact candidates.map fun _ _ => Sum.inl.inj
    · exact (pool.sublist (List.dropLast_sublist _)).map fun _ _ => Sum.inr.inj
    · intro a ha b hb heq
      obtain ⟨_, _, rfl⟩ := List.mem_map.mp ha
      obtain ⟨_, _, rfl⟩ := List.mem_map.mp hb
      cases heq
  have hheld : ∀ x ∈ (r.candidatesOf v).map Sum.inl ++ r.pool.dropLast.map Sum.inr,
      ∃ n ∈ (r.graph.neighbors v).elems, r.kept? n = some x := by
    intro x hx
    rcases List.mem_append.mp hx with hx | hx
    · obtain ⟨reg, hreg, rfl⟩ := List.mem_map.mp hx
      obtain ⟨n, hn, _, hres⟩ := crowded.registers reg hreg
      exact ⟨n, hn, kept?_of_resolved hres⟩
    · obtain ⟨id, hid, rfl⟩ := List.mem_map.mp hx
      obtain ⟨n, hn, _, hcolor⟩ := crowded.extended id hid
      exact ⟨n, hn, kept?_of_extended hcolor⟩
  have hlength := length_le_of_held r.kept? nodup hheld
  rw [List.length_append, List.length_map, List.length_map, List.length_dropLast] at hlength
  rw [FiniteSet.size]
  omega

theorem freeExtended_eq_nil (alone : r.config.exhaustion = .spillAtOnce) (v : Value) :
    r.freeExtended v = [] := by
  rw [freeExtended, alone]

/-- Where no extended color is shared, each node without a free candidate gets a new one. -/
theorem length_pool_colorAll (uncolored : r.Uncolored)
    (alone : r.config.exhaustion = .spillAtOnce) {order : List Value} (nodup : order.Nodup) :
    (r.colorAll order).pool.length =
      order.countP fun v => ((r.colorAll order).color? v).any Color.isExtended := by
  induction order using List.reverseRecOn with
  | nil => exact congrArg List.length uncolored.pool
  | append_singleton order v ih =>
    obtain ⟨hnodup, _, hdisjoint⟩ := List.nodup_append.mp nodup
    have hold : order.countP (fun w => ((r.colorAll (order ++ [v])).color? w).any
        Color.isExtended) = (r.colorAll order).pool.length := by
      rw [ih hnodup]
      apply List.countP_congr
      intro w hw
      rw [colorAll_concat, color?_colorNode_of_ne _ (hdisjoint w hw v List.mem_cons_self)]
    have halone := freeExtended_eq_nil
      ((r.colorAll_sameProblem order).config.symm ▸ alone) v
    have hext := (r.colorAll order).selectColor_isExtended_iff v
    rw [List.countP_append, hold, List.countP_singleton, colorAll_concat, pool_colorNode_eq,
      color?_colorNode_self, Option.any_some]
    by_cases hfree : (r.colorAll order).freeIndices v = []
    · obtain ⟨id, hid⟩ := hext.mpr hfree
      rw [if_pos ⟨hfree, halone⟩, hid, List.length_append, List.length_singleton]
      rfl
    · have hreal : ((r.colorAll order).selectColor v).1.isExtended = false := by
        cases hc : ((r.colorAll order).selectColor v).1 with
        | real index => rfl
        | extended id => exact absurd (hext.mp ⟨id, hc⟩) hfree
      rw [if_neg fun h => hfree h.1, hreal]
      rfl

end Round

/-!
The ids of extended colors. However the choice of a color, a pass over some nodes and the creation
of a color follow each other, the pool lists the ids below zero in their order. While there are no
more colors than ids, each is below all older ones and none of the subtractions wraps around.
-/

theorem toInt_extendedId {i : Nat} (h : i < idCount) :
    (Int32.ofInt (-((i : Int) + 1))).toInt = -((i : Int) + 1) := by
  unfold idCount at h
  exact Int32.toInt_ofInt_of_le (by omega) (by omega)

theorem map_toInt_extendedIds {k : Nat} (h : k ≤ idCount) :
    (extendedIds k).map Int32.toInt = (List.range k).map fun i : Nat => -((i : Int) + 1) := by
  rw [extendedIds, List.map_map]
  apply List.map_congr_left
  intro i hi
  have hik := List.mem_range.mp hi
  rw [Function.comp_apply, toInt_extendedId (by omega)]

theorem extendedIds_descending {k : Nat} (h : k ≤ idCount) :
    (extendedIds k).Pairwise fun older newer => newer < older := by
  have hints : ((extendedIds k).map Int32.toInt).Pairwise fun older newer => newer < older := by
    rw [map_toInt_extendedIds h, List.pairwise_map]
    refine List.pairwise_lt_range.imp ?_
    intro i j hij
    omega
  refine (List.pairwise_map.mp hints).imp ?_
  intro older newer hlt
  exact Int32.lt_iff_toInt_lt.mpr hlt

/-- What may add to a pool: the choice of a color, a pass over some nodes, and the creation of a
color on its own. -/
inductive PoolCall where
  | select (v : Value)
  | colorAll (order : List Value)
  | create
deriving DecidableEq

namespace Round

def call (r : Round) : PoolCall → Round
  | .select v => (r.selectColor v).2
  | .colorAll order => r.colorAll order
  | .create => r.createExtended.2

def callAll (r : Round) (cs : List PoolCall) : Round := cs.foldl call r

/-- The call creates a color when the round is as in `s`. A pass does so in its midst. -/
inductive CreatesAt (r : Round) : PoolCall → Round → Prop where
  | select (v : Value) (exhausted : r.freeIndices v = []) (none : r.freeExtended v = []) :
      CreatesAt r (.select v) r
  | colorAll (pre post : List Value) (v : Value)
      (exhausted : (r.colorAll pre).freeIndices v = [])
      (none : (r.colorAll pre).freeExtended v = []) :
      CreatesAt r (.colorAll (pre ++ v :: post)) (r.colorAll pre)
  | create : CreatesAt r .create r

/-- The next id is the newest one less one, also as an integer. -/
def NextExact (r : Round) : Prop :=
  ∀ newest, r.pool.getLast? = some newest → (newest - 1).toInt = newest.toInt - 1

/-- The pool holds the ids from -1 downwards, in the order of their creation. -/
structure PoolDescends (r : Round) : Prop where
  ids : r.pool.map Int32.toInt = (List.range r.pool.length).map fun i : Nat => -((i : Int) + 1)
  descending : r.pool.Pairwise fun older newer => newer < older
  nodup : r.pool.Nodup

variable {r s : Round} {k : Nat}

theorem poolDescends_of_ids (h : r.pool = extendedIds k) (room : k ≤ idCount) :
    r.PoolDescends := by
  refine ⟨?_, ?_, ?_⟩ <;> rw [h]
  · rw [length_extendedIds, map_toInt_extendedIds room]
  · exact extendedIds_descending room
  · exact nodup_extendedIds room

theorem nextExact_of_ids (h : r.pool = extendedIds k) (room : k < idCount) : r.NextExact := by
  intro newest hnewest
  rw [h] at hnewest
  cases k with
  | zero => cases hnewest
  | succ k =>
    have hnext := nextExtended_eq h
    rw [extendedIds_succ, List.getLast?_concat] at hnewest
    obtain rfl := Option.some.inj hnewest
    rw [nextExtended, h, extendedIds_succ, List.getLast?_concat] at hnext
    dsimp only at hnext
    rw [hnext, toInt_extendedId room, toInt_extendedId (by omega)]
    omega

theorem pool_prefix_colorAll (r : Round) (vs : List Value) :
    r.pool <+: (r.colorAll vs).pool := by
  induction vs generalizing r with
  | nil => exact List.prefix_rfl
  | cons v vs ih =>
    rw [colorAll_cons]
    refine List.IsPrefix.trans ?_ (ih (r.colorNode v))
    rcases r.pool_colorNode_cases v with hpool | ⟨hpool, _⟩
    · exact hpool ▸ List.prefix_rfl
    · exact hpool ▸ List.prefix_append _ _

theorem pool_prefix_call (r : Round) (c : PoolCall) : r.pool <+: (r.call c).pool := by
  cases c with
  | select v => exact r.pool_prefix_colorAll [v]
  | colorAll order => exact r.pool_prefix_colorAll order
  | create => exact List.prefix_append _ _

theorem callAll_append (r : Round) (cs ds : List PoolCall) :
    r.callAll (cs ++ ds) = (r.callAll cs).callAll ds := List.foldl_append

theorem pool_prefix_callAll (r : Round) (cs : List PoolCall) :
    r.pool <+: (r.callAll cs).pool := by
  induction cs generalizing r with
  | nil => exact List.prefix_rfl
  | cons c cs ih => exact (r.pool_prefix_call c).trans (ih (r.call c))

/-- Each call goes on where the ids have stopped. -/
theorem pool_call_eq (h : r.pool = extendedIds k) (c : PoolCall) :
    ∃ l, (r.call c).pool = extendedIds l := by
  cases c with
  | select v =>
    obtain ⟨l, _, hl⟩ := pool_colorAll_eq h [v]
    exact ⟨l, hl⟩
  | colorAll order =>
    obtain ⟨l, _, hl⟩ := pool_colorAll_eq h order
    exact ⟨l, hl⟩
  | create =>
    refine ⟨k + 1, ?_⟩
    have hpool : (r.call .create).pool = r.pool ++ [r.nextExtended] := rfl
    rw [hpool, nextExtended_eq h, h, extendedIds_succ]

theorem pool_callAll_eq (h : r.pool = extendedIds k) (cs : List PoolCall) :
    ∃ l, (r.callAll cs).pool = extendedIds l := by
  induction cs generalizing r k with
  | nil => exact ⟨k, h⟩
  | cons c cs ih =>
    obtain ⟨l, hl⟩ := pool_call_eq h c
    exact ih hl

theorem poolDescends_callAll (empty : r.pool = []) {cs : List PoolCall}
    (room : (r.callAll cs).pool.length ≤ idCount) : (r.callAll cs).PoolDescends := by
  obtain ⟨l, hl⟩ := pool_callAll_eq (k := 0) empty cs
  rw [hl, length_extendedIds] at room
  exact poolDescends_of_ids hl room

theorem CreatesAt.pool_eq {c : PoolCall} (creates : r.CreatesAt c s) (h : r.pool = extendedIds k) :
    ∃ l, s.pool = extendedIds l := by
  cases creates with
  | select => exact ⟨k, h⟩
  | colorAll pre =>
    obtain ⟨l, _, hl⟩ := pool_colorAll_eq h pre
    exact ⟨l, hl⟩
  | create => exact ⟨k, h⟩

/-- The color that is created stays in the pool. -/
theorem CreatesAt.length_lt {c : PoolCall} (creates : r.CreatesAt c s) :
    s.pool.length < (r.call c).pool.length := by
  cases creates with
  | select v exhausted none =>
    have hpool : (r.call (.select v)).pool = (r.colorNode v).pool := rfl
    rw [hpool, pool_colorNode_eq, if_pos ⟨exhausted, none⟩]
    simp
  | colorAll pre post v exhausted none =>
    have hgrows := (((r.colorAll pre).colorNode v).pool_prefix_colorAll post).length_le
    rw [pool_colorNode_eq, if_pos ⟨exhausted, none⟩, List.length_append] at hgrows
    rw [call, colorAll_append, colorAll_cons]
    exact hgrows
  | create => simp [call, createExtended, note]

theorem nextExact_callAll (empty : r.pool = []) (done rest : List PoolCall) {c : PoolCall}
    (room : (r.callAll (done ++ c :: rest)).pool.length ≤ idCount)
    (creates : (r.callAll done).CreatesAt c s) : s.NextExact := by
  obtain ⟨k, hk⟩ := pool_callAll_eq (k := 0) empty done
  obtain ⟨l, hl⟩ := creates.pool_eq hk
  have hgrows := (((r.callAll done).call c).pool_prefix_callAll rest).length_le
  have hlength := creates.length_lt
  rw [callAll_append] at room
  rw [hl, length_extendedIds] at hlength
  exact nextExact_of_ids hl (Nat.lt_of_lt_of_le hlength (Nat.le_trans hgrows room))

end Round

end RegisterColoring
