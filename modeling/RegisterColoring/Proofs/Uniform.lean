import Mathlib.Algebra.BigOperators.Group.Finset.Basic
import Mathlib.Data.Set.Card
import Mathlib.Order.Interval.Finset.Nat
import RegisterColoring.Proofs.Coloring.Pool

/-!
Draws without bias, from single words to the colors of nodes.
-/

namespace RegisterColoring

/-!
How many words stand for each choice. The words that stand for a choice are a block without gaps,
and all blocks have one length, so a word that counts is as likely to stand for one choice as for
any other. A pick takes the choice that its first counting word stands for, and if there is such a
word, it comes before the generator has been through all its states.
-/

/-- The number of high bits of `n`, as a word, that are zero. -/
def leadingZeros (n : Nat) : Nat := (BitVec.ofNat 64 n).clz.toNat

/-- Of the words that count below `n`, as many stand for one choice as for another, and at least
every other word counts. -/
structure UniformBelow (n : Nat) : Prop where
  bound : acceptBound n = n <<< leadingZeros n - 1
  fits : n <<< leadingZeros n < wordCount
  below : ∀ word i, index? n word = some i → i < n
  equal : ∀ i < n, {word | index? n word = some i}.ncard = 2 ^ leadingZeros n
  half : wordCount ≤ 2 * {word | (index? n word).isSome}.ncard

section Words

variable {n i : Nat}

theorem two_pow_le_of_pos (positive : 0 < n) (bound : n < wordCount) :
    leadingZeros n < 64 ∧ 2 ^ (63 - leadingZeros n) ≤ n ∧ n < 2 ^ (64 - leadingZeros n) := by
  have hword : (BitVec.ofNat 64 n).toNat = n := Nat.mod_eq_of_lt bound
  have hne : BitVec.ofNat 64 n ≠ 0#64 := by
    intro h
    rw [h] at hword
    exact absurd hword (Nat.ne_of_lt positive)
  have hlow : 2 ^ (63 - leadingZeros n) ≤ (BitVec.ofNat 64 n).toNat :=
    BitVec.two_pow_sub_clz_le_toNat_of_ne_zero (by decide) hne
  have hhigh : (BitVec.ofNat 64 n).toNat < 2 ^ (64 - leadingZeros n) :=
    BitVec.toNat_lt_two_pow_sub_clz
  rw [hword] at hlow hhigh
  refine ⟨?_, hlow, hhigh⟩
  by_contra hmany
  rw [Nat.sub_eq_zero_of_le (Nat.le_of_not_lt hmany)] at hhigh
  omega

/-- The part of the range of low halves in which words count. -/
def countingPart (n : Nat) : Nat := n * 2 ^ leadingZeros n

theorem countingPart_pos (positive : 0 < n) : 0 < countingPart n :=
  Nat.mul_pos positive (Nat.two_pow_pos _)

theorem countingPart_lt (positive : 0 < n) (bound : n < wordCount) :
    countingPart n < wordCount := by
  obtain ⟨hzeros, _, hhigh⟩ := two_pow_le_of_pos positive bound
  calc countingPart n
      < 2 ^ (64 - leadingZeros n) * 2 ^ leadingZeros n :=
        Nat.mul_lt_mul_of_pos_right hhigh (Nat.two_pow_pos _)
    _ = wordCount := by
        rw [← Nat.pow_add, Nat.sub_add_cancel (by omega)]
        rfl

theorem wordCount_le_countingPart (positive : 0 < n) (bound : n < wordCount) :
    wordCount ≤ 2 * countingPart n := by
  obtain ⟨hzeros, hlow, _⟩ := two_pow_le_of_pos positive bound
  calc wordCount
      = 2 * (2 ^ (63 - leadingZeros n) * 2 ^ leadingZeros n) := by
        rw [← Nat.pow_add, Nat.sub_add_cancel (by omega)]
        rfl
    _ ≤ 2 * countingPart n := Nat.mul_le_mul_left 2 (Nat.mul_le_mul_right _ hlow)

theorem acceptBound_eq (positive : 0 < n) (bound : n < wordCount) :
    acceptBound n = countingPart n - 1 := by
  obtain ⟨hzeros, hlow, hhigh⟩ := two_pow_le_of_pos positive bound
  have hlog : n.log2 = 63 - leadingZeros n := by
    rw [Nat.log2_eq_iff (Nat.ne_of_gt positive)]
    exact ⟨hlow, by rwa [show 63 - leadingZeros n + 1 = 64 - leadingZeros n by omega]⟩
  rw [acceptBound, hlog, show 63 - (63 - leadingZeros n) = leadingZeros n by omega]
  rfl

/-- The lowest word that stands for `i`, if any word does. -/
def firstWord (n i : Nat) : Nat := (i * wordCount + (n - 1)) / n

theorem firstWord_le_iff (positive : 0 < n) {x : Nat} :
    firstWord n i ≤ x ↔ i * wordCount ≤ x * n := by
  rw [firstWord, Nat.div_le_iff_le_mul_add_pred positive, Nat.mul_comm n x]
  exact Nat.add_le_add_iff_right

theorem firstWord_add_le_iff (positive : 0 < n) {x k : Nat} :
    firstWord n i + k ≤ x ↔ i * wordCount + n * k ≤ x * n := by
  by_cases hk : k ≤ x
  · obtain ⟨y, rfl⟩ := Nat.exists_eq_add_of_le' hk
    rw [Nat.add_le_add_iff_right, firstWord_le_iff positive, Nat.add_mul, Nat.mul_comm n k,
      Nat.add_le_add_iff_right]
  · have hlt : x * n < k * n := Nat.mul_lt_mul_of_pos_right (Nat.lt_of_not_le hk) positive
    rw [Nat.mul_comm k n] at hlt
    omega

/-- The words that stand for `i`, as many for each `i`. -/
def wordBlock (n i : Nat) : Finset Nat :=
  Finset.Ico (firstWord n i) (firstWord n i + 2 ^ leadingZeros n)

theorem card_wordBlock (n i : Nat) : (wordBlock n i).card = 2 ^ leadingZeros n := by
  rw [wordBlock, Nat.card_Ico, Nat.add_sub_cancel_left]

theorem mem_wordBlock_iff (positive : 0 < n) (bound : n < wordCount) {word : UInt64} :
    word.toNat ∈ wordBlock n i ↔ index? n word = some i := by
  have hpart := countingPart_pos positive
  have hfits := countingPart_lt positive bound
  have hend : word.toNat < firstWord n i + 2 ^ leadingZeros n ↔
      word.toNat * n < i * wordCount + countingPart n := by
    rw [← Nat.not_le, firstWord_add_le_iff positive, Nat.not_le]
    rfl
  rw [wordBlock, Finset.mem_Ico, firstWord_le_iff positive, hend]
  simp only [index?, acceptBound_eq positive bound, Option.ite_none_right_eq_some,
    Option.some.injEq]
  have hdecompose := Nat.div_add_mod' (word.toNat * n) wordCount
  constructor
  · rintro ⟨hle, hlt⟩
    have hquotient : word.toNat * n / wordCount = i :=
      Nat.div_eq_of_lt_le hle (by rw [Nat.succ_mul]; omega)
    rw [hquotient] at hdecompose
    exact ⟨by omega, hquotient⟩
  · rintro ⟨hlow, rfl⟩
    omega

theorem lt_of_mem_wordBlock (positive : 0 < n) (bound : n < wordCount) (hi : i < n) {x : Nat}
    (hx : x ∈ wordBlock n i) : x < wordCount := by
  have hfits : n * 2 ^ leadingZeros n < wordCount := countingPart_lt positive bound
  have hlast : firstWord n i + 2 ^ leadingZeros n ≤ wordCount := by
    rw [firstWord_add_le_iff positive]
    calc i * wordCount + n * 2 ^ leadingZeros n
        ≤ (i + 1) * wordCount := by rw [Nat.succ_mul]; omega
      _ ≤ wordCount * n := by rw [Nat.mul_comm wordCount]; exact Nat.mul_le_mul_right _ hi
  exact Nat.lt_of_lt_of_le (Finset.mem_Ico.mp hx).2 hlast

/-- Words may be counted by their numbers. -/
theorem ncard_words {s : Set UInt64} {t : Finset Nat} (small : ∀ x ∈ t, x < wordCount)
    (mem : ∀ word, word ∈ s ↔ word.toNat ∈ t) : s.ncard = t.card := by
  have himage : UInt64.toNat '' s = t := by
    ext x
    constructor
    · rintro ⟨word, hword, rfl⟩
      exact (mem word).mp hword
    · intro hx
      have hnumber : (UInt64.ofNat x).toNat = x := UInt64.toNat_ofNat_of_lt (small x hx)
      exact ⟨.ofNat x, (mem _).mpr (hnumber.symm ▸ hx), hnumber⟩
  rw [← Set.ncard_image_of_injective s fun _ _ h => UInt64.toNat_inj.mp h, himage,
    Set.ncard_coe_finset]

theorem ncard_index? (positive : 0 < n) (bound : n < wordCount) (hi : i < n) :
    {word | index? n word = some i}.ncard = 2 ^ leadingZeros n := by
  rw [← card_wordBlock n i]
  exact ncard_words (fun x hx => lt_of_mem_wordBlock positive bound hi hx)
    fun word => (mem_wordBlock_iff positive bound).symm

/-- The blocks of different choices have no number in common. -/
theorem disjoint_wordBlock (positive : 0 < n) (bound : n < wordCount) {j : Nat} (hi : i < n)
    (hne : i ≠ j) : Disjoint (wordBlock n i) (wordBlock n j) := by
  rw [Finset.disjoint_left]
  intro x hxi hxj
  have hnumber : (UInt64.ofNat x).toNat = x :=
    UInt64.toNat_ofNat_of_lt (lt_of_mem_wordBlock positive bound hi hxi)
  rw [← hnumber, mem_wordBlock_iff positive bound] at hxi hxj
  exact hne (Option.some.inj (hxi.symm.trans hxj))

theorem ncard_counting (positive : 0 < n) (bound : n < wordCount) :
    {word | (index? n word).isSome}.ncard = countingPart n := by
  have hblocks : ∀ word : UInt64, (index? n word).isSome = true ↔
      word.toNat ∈ (Finset.range n).biUnion (wordBlock n) := by
    intro word
    rw [Option.isSome_iff_exists, Finset.mem_biUnion]
    simp only [mem_wordBlock_iff positive bound, Finset.mem_range]
    exact exists_congr fun i => ⟨fun h => ⟨index?_lt positive h, h⟩, And.right⟩
  have hsmall : ∀ x ∈ (Finset.range n).biUnion (wordBlock n), x < wordCount := by
    intro x hx
    obtain ⟨i, hi, hx⟩ := Finset.mem_biUnion.mp hx
    exact lt_of_mem_wordBlock positive bound (Finset.mem_range.mp hi) hx
  have hcard := ncard_words (s := {word | (index? n word).isSome}) hsmall hblocks
  rw [hcard, Finset.card_biUnion]
  · simp [card_wordBlock, countingPart]
  · intro i hi j _ hne
    exact disjoint_wordBlock positive bound (Finset.mem_range.mp hi) hne

theorem uniformBelow (positive : 0 < n) (bound : n < wordCount) : UniformBelow n where
  bound := by rw [acceptBound_eq positive bound, Nat.shiftLeft_eq, countingPart]
  fits := by
    rw [Nat.shiftLeft_eq]
    exact countingPart_lt positive bound
  below _ _ h := index?_lt positive h
  equal _ hi := ncard_index? positive bound hi
  half := by
    rw [ncard_counting positive bound]
    exact wordCount_le_countingPart positive bound

end Words

namespace Generator

/-- The generator after `k` words. -/
def skip (g : Generator) : Nat → Generator
  | 0 => g
  | k + 1 => g.next.2.skip k

/-- The word that comes after `k` others. -/
def word (g : Generator) (k : Nat) : UInt64 := (g.skip k).next.1

theorem skip_add (g : Generator) (j k : Nat) : g.skip (j + k) = (g.skip j).skip k := by
  induction j generalizing g with
  | zero => rw [Nat.zero_add, skip]
  | succ j ih =>
    rw [Nat.succ_add, skip, skip]
    exact ih g.next.2

/-- The state as one number. -/
def number (g : Generator) : Nat :=
  ((g.s0.toNat * wordCount + g.s1.toNat) * wordCount + g.s2.toNat) * wordCount + g.s3.toNat

theorem number_lt (g : Generator) : g.number < maxDraws := by
  have size : wordCount = 18446744073709551616 := rfl
  have draws : maxDraws = wordCount * wordCount * wordCount * wordCount := by decide
  have h0 := g.s0.toNat_lt
  have h1 := g.s1.toNat_lt
  have h2 := g.s2.toNat_lt
  have h3 := g.s3.toNat_lt
  rw [number, draws, size]
  omega

theorem number_injective {g g' : Generator} (h : g.number = g'.number) : g = g' := by
  have size : wordCount = 18446744073709551616 := rfl
  obtain ⟨s0, s1, s2, s3⟩ := g
  obtain ⟨t0, t1, t2, t3⟩ := g'
  have h1 := s1.toNat_lt
  have h2 := s2.toNat_lt
  have h3 := s3.toNat_lt
  have k1 := t1.toNat_lt
  have k2 := t2.toNat_lt
  have k3 := t3.toNat_lt
  simp only [number, size] at h
  simp only [mk.injEq, ← UInt64.toNat_inj]
  omega

/-- There are `maxDraws` states, so after as many draws a state has come twice. -/
theorem exists_skip_eq (g : Generator) : ∃ j k, j < k ∧ k ≤ maxDraws ∧ g.skip j = g.skip k := by
  have hcard : (Finset.range maxDraws).card < (Finset.range (maxDraws + 1)).card := by
    rw [Finset.card_range, Finset.card_range]
    exact Nat.lt_succ_self _
  obtain ⟨j, hj, k, hk, hne, heq⟩ := Finset.exists_ne_map_eq_of_card_lt_of_maps_to hcard
    (f := fun j => (g.skip j).number) fun j _ => Finset.mem_range.mpr (g.skip j).number_lt
  have hstate := number_injective heq
  rcases Nat.lt_or_gt_of_ne hne with hlt | hlt
  · exact ⟨j, k, hlt, Nat.le_of_lt_succ (Finset.mem_range.mp hk), hstate⟩
  · exact ⟨k, j, hlt, Nat.le_of_lt_succ (Finset.mem_range.mp hj), hstate.symm⟩

/-- The first word of `g` that counts below `n` comes after `k` others and stands for `i`. -/
structure Settles (g : Generator) (n k i : Nat) : Prop where
  refused : ∀ j < k, index? n (g.word j) = none
  counts : index? n (g.word k) = some i

variable {g : Generator} {n k i : Nat}

/-- The first counting word comes before the generator repeats itself. -/
theorem Settles.lt_maxDraws (h : g.Settles n k i) : k < maxDraws := by
  by_contra hk
  obtain ⟨a, b, hab, hb, hstate⟩ := g.exists_skip_eq
  -- the state has been there before, and the same words have followed
  obtain ⟨rest, rfl⟩ := Nat.exists_eq_add_of_le (Nat.le_trans hb (Nat.le_of_not_lt hk))
  have hearlier : g.word (a + rest) = g.word (b + rest) := by
    rw [word, word, skip_add, skip_add, hstate]
  have hrefused := h.refused (a + rest) (Nat.add_lt_add_right hab rest)
  rw [hearlier, h.counts] at hrefused
  cases hrefused

theorem settles_zero_iff : g.Settles n 0 i ↔ index? n g.next.1 = some i :=
  ⟨fun h => h.counts, fun h => ⟨fun _ hj => absurd hj (Nat.not_lt_zero _), h⟩⟩

theorem settles_succ_iff :
    g.Settles n (k + 1) i ↔ index? n g.next.1 = none ∧ g.next.2.Settles n k i := by
  constructor
  · intro h
    exact ⟨h.refused 0 (Nat.succ_pos k),
      fun j hj => h.refused (j + 1) (Nat.succ_lt_succ hj), h.counts⟩
  · rintro ⟨hfirst, h⟩
    refine ⟨fun j hj => ?_, h.counts⟩
    cases j with
    | zero => exact hfirst
    | succ j => exact h.refused j (Nat.lt_of_succ_lt_succ hj)

theorem drawIndex_of_settles (h : g.Settles n k i) {fuel : Nat} (enough : k < fuel) :
    drawIndex n fuel g = (i, g.skip (k + 1)) := by
  induction k generalizing g fuel with
  | zero =>
    obtain ⟨fuel, rfl⟩ := Nat.exists_eq_succ_of_ne_zero (Nat.ne_of_gt enough)
    have hword := settles_zero_iff.mp h
    simp only [drawIndex, hword]
    rfl
  | succ k ih =>
    obtain ⟨fuel, rfl⟩ := Nat.exists_eq_succ_of_ne_zero (Nat.ne_zero_of_lt enough)
    obtain ⟨hword, hrest⟩ := settles_succ_iff.mp h
    simp only [drawIndex, hword]
    exact ih hrest (Nat.lt_of_succ_lt_succ enough)

theorem pick?_of_settles {α : Type} {choices : List α} (h : g.Settles choices.length k i)
    (inside : i < choices.length) :
    g.pick? choices = some (choices[i], g.skip (k + 1)) := by
  have hnonempty : choices.isEmpty = false :=
    List.isEmpty_eq_false_iff.mpr (List.length_pos_iff.mp (Nat.zero_lt_of_lt inside))
  have hdraw : g.below choices.length = (i, g.skip (k + 1)) :=
    drawIndex_of_settles h h.lt_maxDraws
  simp only [pick?, hnonempty, hdraw, List.getElem?_eq_getElem inside]
  rfl

end Generator

section Choices

variable {α : Type} {choices : List α}

/-- A pick never looks outside the list, each place has as many words as another, and the place is
the one that the first counting word stands for. -/
structure PicksUniformly (choices : List α) : Prop where
  inside : ∀ g : Generator, (g.below choices.length).1 < choices.length
  equal : ∀ i < choices.length,
    {word | index? choices.length word = some i}.ncard = 2 ^ leadingZeros choices.length
  settled : ∀ (g : Generator) (k i : Nat), g.Settles choices.length k i →
    ∃ inside : i < choices.length, g.pick? choices = some (choices[i], g.skip (k + 1))

theorem picksUniformly (nonempty : choices ≠ []) (bound : choices.length < wordCount) :
    PicksUniformly choices where
  inside g := Generator.drawIndex_lt (List.length_pos_iff.mpr nonempty) Generator.maxDraws g
  equal _ hi := ncard_index? (Nat.zero_lt_of_lt hi) bound hi
  settled g k i h := by
    have inside := index?_lt (List.length_pos_iff.mpr nonempty) h.counts
    exact ⟨inside, Generator.pick?_of_settles h inside⟩

/-- The choice that a word stands for, if the word counts. -/
def chosen? (choices : List α) (word : UInt64) : Option α :=
  (index? choices.length word).bind fun i => choices[i]?

theorem chosen?_eq_none_iff (nonempty : choices ≠ []) {word : UInt64} :
    chosen? choices word = none ↔ index? choices.length word = none := by
  rw [chosen?, Option.bind_eq_none_iff]
  constructor
  · intro h
    cases hindex : index? choices.length word with
    | none => rfl
    | some i =>
      have inside := index?_lt (List.length_pos_iff.mpr nonempty) hindex
      exact absurd (h i hindex) (by simp [inside])
  · intro h i hi
    rw [h] at hi
    cases hi

/-- Where no choice is listed twice, the words that stand for a choice are those of its place. -/
theorem chosen?_eq_some_iff (distinct : choices.Nodup) {i : Nat} (inside : i < choices.length)
    {word : UInt64} :
    chosen? choices word = some choices[i] ↔ index? choices.length word = some i := by
  rw [chosen?, Option.bind_eq_some_iff]
  constructor
  · rintro ⟨j, hindex, hplace⟩
    obtain ⟨hj, heq⟩ := List.getElem?_eq_some_iff.mp hplace
    rwa [← (distinct.getElem_inj_iff).mp heq]
  · intro hindex
    exact ⟨i, hindex, List.getElem?_eq_getElem inside⟩

theorem ncard_chosen? (distinct : choices.Nodup) (bound : choices.length < wordCount) {x : α}
    (hx : x ∈ choices) :
    {word | chosen? choices word = some x}.ncard = 2 ^ leadingZeros choices.length := by
  obtain ⟨i, inside, rfl⟩ := List.mem_iff_getElem.mp hx
  simp only [chosen?_eq_some_iff distinct inside]
  exact ncard_index? (Nat.zero_lt_of_lt inside) bound inside

theorem Generator.pick?_of_chosen? {g : Generator} {k : Nat} {x : α}
    (refused : ∀ j < k, chosen? choices (g.word j) = none)
    (counts : chosen? choices (g.word k) = some x) :
    g.pick? choices = some (x, g.skip (k + 1)) := by
  obtain ⟨i, hindex, hplace⟩ := Option.bind_eq_some_iff.mp counts
  obtain ⟨inside, rfl⟩ := List.getElem?_eq_some_iff.mp hplace
  have nonempty : choices ≠ [] := List.ne_nil_of_length_pos (Nat.zero_lt_of_lt inside)
  refine pick?_of_settles ⟨fun j hj => ?_, hindex⟩ inside
  exact (chosen?_eq_none_iff nonempty).mp (refused j hj)

end Choices

/-!
The chances of a color. A node that has free candidates gets each of them by as many words as any
other, and one that has none gets each extended color it may share by as many words. When there is
nothing to choose from, nothing is drawn.
-/

namespace Round

variable {r : Round} {v : Value}

/-- The color that a word gives to `v`, if the word counts. -/
def colorOf? (r : Round) (v : Value) (word : UInt64) : Option Color :=
  if r.freeIndices v = [] then (chosen? (r.freeExtended v) word).map .extended
  else (chosen? (r.freeIndices v) word).map .real

/-- The color of a step is the one that the first counting word gives, and each color that is free
has as many words as the others. -/
structure ColorsUniformly (r : Round) (v : Value) : Prop where
  real : ∀ index ∈ r.freeIndices v, {word | r.colorOf? v word = some (.real index)}.ncard =
    2 ^ leadingZeros (r.freeIndices v).length
  extended : r.freeIndices v = [] → ∀ id ∈ r.freeExtended v,
    {word | r.colorOf? v word = some (.extended id)}.ncard =
      2 ^ leadingZeros (r.freeExtended v).length
  drawn : ∀ (k : Nat) (c : Color), (∀ j < k, r.colorOf? v (r.generator.word j) = none) →
    r.colorOf? v (r.generator.word k) = some c →
    r.selectColor v = (c, { r with generator := r.generator.skip (k + 1) })
  created : r.freeIndices v = [] → r.freeExtended v = [] →
    r.selectColor v = (.extended r.nextExtended, r.createExtended.2)

theorem freeIndices_nodup (r : Round) (v : Value) : (r.freeIndices v).Nodup := by
  have hplaces : ((r.candidatesOf v).zipIdx.map Prod.snd).Nodup := by
    rw [List.zipIdx_map_snd]
    exact List.nodup_range'
  exact hplaces.sublist (List.filter_sublist.map Prod.snd)

theorem freeExtended_nodup (distinct : r.pool.Nodup) (v : Value) : (r.freeExtended v).Nodup := by
  unfold freeExtended
  cases r.config.exhaustion with
  | extend => exact distinct.filter _
  | spillAtOnce => exact List.nodup_nil

theorem selectColor_of_free {index : Nat} {g : Generator}
    (h : r.generator.pick? (r.freeIndices v) = some (index, g)) :
    r.selectColor v = (.real index, { r with generator := g }) := by
  rw [selectColor, h]

theorem selectColor_of_shared {id : Int32} {g : Generator} (exhausted : r.freeIndices v = [])
    (h : r.generator.pick? (r.freeExtended v) = some (id, g)) :
    r.selectColor v = (.extended id, { r with generator := g }) := by
  rw [selectColor, Generator.pick?_eq_none_iff.mpr exhausted]
  dsimp only
  rw [h]

theorem selectColor_of_none (exhausted : r.freeIndices v = []) (none : r.freeExtended v = []) :
    r.selectColor v = (.extended r.nextExtended, r.createExtended.2) := by
  rw [selectColor, Generator.pick?_eq_none_iff.mpr exhausted]
  dsimp only
  rw [Generator.pick?_eq_none_iff.mpr none]
  rfl

theorem selectColor_of_colorOf? {k : Nat} {c : Color}
    (refused : ∀ j < k, r.colorOf? v (r.generator.word j) = none)
    (counts : r.colorOf? v (r.generator.word k) = some c) :
    r.selectColor v = (c, { r with generator := r.generator.skip (k + 1) }) := by
  unfold colorOf? at refused counts
  by_cases exhausted : r.freeIndices v = []
  · simp only [if_pos exhausted, Option.map_eq_none_iff, Option.map_eq_some_iff] at refused counts
    obtain ⟨id, hid, rfl⟩ := counts
    exact selectColor_of_shared exhausted (Generator.pick?_of_chosen? refused hid)
  · simp only [if_neg exhausted, Option.map_eq_none_iff, Option.map_eq_some_iff] at refused counts
    obtain ⟨index, hindex, rfl⟩ := counts
    exact selectColor_of_free (Generator.pick?_of_chosen? refused hindex)

theorem colorsUniformly (places : (r.freeIndices v).length < wordCount)
    (shared : (r.freeExtended v).length < wordCount) (distinct : r.pool.Nodup) :
    r.ColorsUniformly v where
  real index hindex := by
    have hfree : r.freeIndices v ≠ [] := List.ne_nil_of_mem hindex
    have hwords : ∀ word, r.colorOf? v word = some (.real index) ↔
        chosen? (r.freeIndices v) word = some index := by
      intro word
      simp [colorOf?, hfree]
    simp only [hwords]
    exact ncard_chosen? (r.freeIndices_nodup v) places hindex
  extended exhausted id hid := by
    have hwords : ∀ word, r.colorOf? v word = some (.extended id) ↔
        chosen? (r.freeExtended v) word = some id := by
      intro word
      simp [colorOf?, exhausted]
    simp only [hwords]
    exact ncard_chosen? (freeExtended_nodup distinct v) shared hid
  drawn _ _ := selectColor_of_colorOf?
  created := selectColor_of_none

/-- Each choice is drawn by as many words as any other: numbers below a bound, entries of a list,
and the colors that are free for a node. That a color stands in the pool once is what a pass sees
to, whatever the graph and the candidates are. -/
theorem draws_are_uniform :
    (∀ n, 0 < n → n < wordCount → UniformBelow n) ∧
    (∀ (α : Type) (choices : List α), choices ≠ [] → choices.length < wordCount →
      PicksUniformly choices) ∧
    (∀ (r : Round) (v : Value), (r.freeIndices v).length < wordCount →
      (r.freeExtended v).length < wordCount → r.pool.Nodup → r.ColorsUniformly v) ∧
    ∀ (r : Round) (order : List Value), r.Uncolored → order.length ≤ idCount →
      (r.colorAll order).pool.Nodup :=
  ⟨fun _ positive bound => uniformBelow positive bound,
    fun _ _ nonempty bound => picksUniformly nonempty bound,
    fun _ _ places shared distinct => colorsUniformly places shared distinct,
    fun _ _ uncolored room => nodup_pool_colorAll uncolored room⟩

/-- The pass has left the only register of the last value to a neighbor. -/
def spentTriangle : Round := triangle.colorAll [⟨2⟩, ⟨0⟩, ⟨1⟩]

/-- Two registers share half of all words, and a value without candidates has half of them for the
one extended color there is. -/
theorem triangle_draws_uniform :
    UniformBelow 3 ∧ PicksUniformly [true, false, true] ∧
      triangle.freeIndices ⟨0⟩ = [0, 1] ∧
      {word | triangle.colorOf? ⟨0⟩ word = some (.real 1)}.ncard = 2 ^ 62 ∧
      spentTriangle.pool = [-1] ∧
      {word | spentTriangle.colorOf? ⟨9⟩ word = some (.extended (-1))}.ncard = 2 ^ 63 := by
  obtain ⟨huniform, hpicks, hcolors, hpool⟩ := draws_are_uniform
  have hdistinct := hpool triangle [⟨2⟩, ⟨0⟩, ⟨1⟩] ⟨rfl, rfl⟩ (by decide)
  have hspent : spentTriangle.pool = [-1] := by decide +kernel
  have hreal := (hcolors triangle ⟨0⟩ (by decide +kernel) (by decide +kernel)
    (by decide +kernel)).real 1 (by decide +kernel)
  have hextended := (hcolors spentTriangle ⟨9⟩ (by decide +kernel) (by decide +kernel)
    hdistinct).extended (by decide +kernel) (-1) (by decide +kernel)
  exact ⟨huniform 3 (by decide) (by decide +kernel),
    hpicks Bool [true, false, true] (by decide) (by decide +kernel),
    by decide +kernel, hreal, hspent, hextended⟩

end Round

end RegisterColoring
