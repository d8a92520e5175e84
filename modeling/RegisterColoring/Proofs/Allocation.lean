import Mathlib.Algebra.Order.Field.Power
import Mathlib.Data.EReal.Operations
import RegisterColoring.Allocation

/-!
The order of the weights, and the ranking of the spilled values that it makes.
-/

namespace RegisterColoring

/-!
What the order of the weights is. It is the order of their words read as signed integers, once the
bits under a sign bit have been flipped, and among the weights that are numbers it puts the lesser
number first.
-/

namespace Weight

/-- The word with the bits under a sign bit flipped: the sign is spread over the word, and all of it
but the first place is the mask. -/
def flipped (w : Weight) : Int64 :=
  w.bits.toInt64 ^^^ ((w.bits.toInt64 >>> 63).toUInt64 >>> 1).toInt64

def mantissa (w : Weight) : Nat :=
  if w.exponentField = 0 then w.fractionField else w.fractionField + fractionSize

/-- The weights without an exponent have the exponent of the smallest ones that have one. -/
def exponent (w : Weight) : Int := max w.exponentField 1 - 1075

/-- The number behind a weight, its sign left out. -/
noncomputable def magnitude (w : Weight) : EReal :=
  if w.exponentField = 2047 then ⊤ else ((w.mantissa * 2 ^ w.exponent : ℝ) : EReal)

noncomputable def amount (w : Weight) : EReal :=
  if w.isNegative then -w.magnitude else w.magnitude

/-- The number that a weight is, unless its pattern is that of no number. -/
noncomputable def amount? (w : Weight) : Option EReal :=
  if w.exponentField = 2047 ∧ w.fractionField ≠ 0 then none else some w.amount

section Flipped

theorem toBitVec_flipped (w : Weight) : w.flipped.toBitVec =
    w.bits.toBitVec ^^^ w.bits.toBitVec.sshiftRight 63 >>> 1 := by
  simp only [flipped, Int64.toBitVec_xor, UInt64.toBitVec_toInt64, UInt64.toBitVec_shiftRight,
    Int64.toBitVec_toUInt64, Int64.toBitVec_shiftRight]
  rfl

theorem msb_bits (w : Weight) : w.bits.toBitVec.msb = w.isNegative := by
  rw [BitVec.msb_eq_decide]
  rfl

/-- Without a sign bit there is nothing to flip. -/
theorem mask_of_not_negative {w : Weight} (h : w.isNegative = false) :
    w.bits.toBitVec.sshiftRight 63 >>> 1 = 0#64 := by
  have hbits := w.bits.toNat_lt
  apply BitVec.eq_of_toNat_eq
  rw [BitVec.sshiftRight_eq_of_msb_false (w.msb_bits.trans h), BitVec.toNat_ushiftRight,
    BitVec.toNat_ushiftRight, Nat.shiftRight_eq_div_pow, Nat.shiftRight_eq_div_pow,
    BitVec.toNat_ofNat, UInt64.toNat_toBitVec]
  omega

theorem mask_of_negative {w : Weight} (h : w.isNegative = true) :
    w.bits.toBitVec.sshiftRight 63 >>> 1 = BitVec.ofNat 64 (2 ^ 63 - 1) := by
  have hbits := w.bits.toNat_lt
  have hsign := isNegative_iff.mp h
  have size : signBit = 9223372036854775808 := rfl
  have hzero : ~~~w.bits.toBitVec >>> 63 = 0#64 := by
    apply BitVec.eq_of_toNat_eq
    rw [BitVec.toNat_ushiftRight, BitVec.toNat_not, Nat.shiftRight_eq_div_pow,
      BitVec.toNat_ofNat, UInt64.toNat_toBitVec]
    omega
  rw [BitVec.sshiftRight_eq_of_msb_true (w.msb_bits.trans h), hzero]
  rfl

/-- A mask of ones flips each place of a number, which leaves what it lacks of the mask. -/
theorem xor_lowMask {n k : Nat} (h : n < 2 ^ k) : n ^^^ (2 ^ k - 1) = 2 ^ k - (n + 1) := by
  apply Nat.eq_of_testBit_eq
  intro i
  rw [Nat.testBit_xor, Nat.testBit_two_pow_sub_one, Nat.testBit_two_pow_sub_succ h]
  by_cases hi : i < k
  · simp [hi]
  · have hout : n.testBit i = false :=
      Nat.testBit_lt_two_pow (Nat.lt_of_lt_of_le h (Nat.pow_le_pow_right (by decide) (by omega)))
    simp [hi, hout]

theorem toNat_flipped_of_negative {w : Weight} (h : w.isNegative = true) :
    w.flipped.toBitVec.toNat = 3 * signBit - 1 - w.bits.toNat := by
  have hbits := w.bits.toNat_lt
  have hsign := isNegative_iff.mp h
  have size : signBit = 9223372036854775808 := rfl
  have hone : w.bits.toNat / 2 ^ 63 = 1 := by omega
  have hhigh : (w.bits.toNat ^^^ (2 ^ 63 - 1)) / 2 ^ 63 = 1 := by
    rw [Nat.xor_div_two_pow, hone]
    rfl
  have hlow : (w.bits.toNat ^^^ (2 ^ 63 - 1)) % 2 ^ 63 =
      2 ^ 63 - (w.bits.toNat % 2 ^ 63 + 1) := by
    rw [Nat.xor_mod_two_pow, Nat.mod_eq_of_lt (by omega : 2 ^ 63 - 1 < 2 ^ 63),
      xor_lowMask (by omega)]
  rw [toBitVec_flipped, mask_of_negative h, BitVec.toNat_xor, UInt64.toNat_toBitVec,
    BitVec.toNat_ofNat, Nat.mod_eq_of_lt (by omega)]
  omega

theorem toInt_flipped (w : Weight) : w.flipped.toInt = w.rank := by
  have hbits := w.bits.toNat_lt
  have size : signBit = 9223372036854775808 := rfl
  rw [← Int64.toInt_toBitVec, BitVec.toInt_eq_toNat_cond, rank]
  cases h : w.isNegative with
  | true =>
    have hsign := isNegative_iff.mp h
    rw [if_pos rfl, toNat_flipped_of_negative h, if_neg (by omega)]
    omega
  | false =>
    have hsign : ¬ signBit ≤ w.bits.toNat := by
      rw [← isNegative_iff, h]
      exact Bool.false_ne_true
    rw [if_neg Bool.false_ne_true, toBitVec_flipped, mask_of_not_negative h, BitVec.xor_zero,
      UInt64.toNat_toBitVec, if_pos (by omega)]

theorem flipped_lt_iff {v w : Weight} : v.flipped < w.flipped ↔ v < w := by
  rw [Int64.lt_iff_toInt_lt, toInt_flipped, toInt_flipped, lt_def]

end Flipped

section Amount

/-- The word without its sign bit. -/
def low (w : Weight) : Nat := w.bits.toNat % signBit

theorem fields_eq_low (w : Weight) : w.exponentField * 4503599627370496 + w.fractionField = w.low ∧
    w.exponentField < 2048 ∧ w.fractionField < 4503599627370496 := by
  have hbits := w.bits.toNat_lt
  unfold exponentField fractionField low
  rw [show fractionSize = 4503599627370496 from rfl, show signBit = 9223372036854775808 from rfl]
  omega

/-- What has the larger exponent has the larger number, whatever the fractions are. -/
theorem mantissa_mul_le {v w : Weight} (h : v.low ≤ w.low) :
    (v.mantissa * 2 ^ v.exponent : ℝ) ≤ w.mantissa * 2 ^ w.exponent := by
  have size : fractionSize = 4503599627370496 := rfl
  obtain ⟨hv, _, hvfraction⟩ := v.fields_eq_low
  obtain ⟨hw, _, hwfraction⟩ := w.fields_eq_low
  by_cases hsame : v.exponent = w.exponent
  · have hmantissa : v.mantissa ≤ w.mantissa := by
      unfold exponent at hsame
      unfold mantissa
      split <;> split <;> omega
    rw [hsame]
    gcongr
  · have hexponent : v.exponent + 1 ≤ w.exponent := by
      unfold exponent at hsame ⊢
      omega
    have hmantissa : v.mantissa ≤ w.mantissa * 2 := by
      unfold exponent at hsame
      unfold mantissa
      split <;> split <;> omega
    calc (v.mantissa * 2 ^ v.exponent : ℝ)
        ≤ (w.mantissa * 2 : ℕ) * 2 ^ v.exponent := by gcongr
      _ = w.mantissa * 2 ^ (v.exponent + 1) := by
        rw [zpow_add_one₀ two_ne_zero, Nat.cast_mul, Nat.cast_two]
        ring
      _ ≤ w.mantissa * 2 ^ w.exponent := by
        gcongr
        norm_num

theorem magnitude_le {v w : Weight} (h : v.low ≤ w.low) : v.magnitude ≤ w.magnitude := by
  unfold magnitude
  by_cases hw : w.exponentField = 2047
  · rw [if_pos hw]
    exact le_top
  · have hv : v.exponentField ≠ 2047 := by
      obtain ⟨hv, _, _⟩ := v.fields_eq_low
      obtain ⟨hw, _, _⟩ := w.fields_eq_low
      omega
    rw [if_neg hv, if_neg hw, EReal.coe_le_coe_iff]
    exact mantissa_mul_le h

theorem magnitude_nonneg (w : Weight) : 0 ≤ w.magnitude := by
  unfold magnitude
  split
  · exact le_top
  · rw [← EReal.coe_zero, EReal.coe_le_coe_iff]
    positivity

theorem rank_of_negative {w : Weight} (h : w.isNegative = true) : w.rank = -1 - w.low := by
  have hbits := w.bits.toNat_lt
  have hsign := isNegative_iff.mp h
  rw [rank, if_pos h, low]
  rw [show signBit = 9223372036854775808 from rfl] at hsign ⊢
  omega

theorem rank_of_not_negative {w : Weight} (h : ¬ w.isNegative = true) : w.rank = w.low := by
  have hsign := mt isNegative_iff.mpr h
  rw [rank, if_neg h, low, Nat.mod_eq_of_lt (by omega)]

/-- The order goes up with the numbers where there is no sign bit, and down with them where there
is one. -/
theorem amount_mono {v w : Weight} (h : v ≤ w) : v.amount ≤ w.amount := by
  rw [le_def] at h
  unfold amount
  by_cases hv : v.isNegative = true <;> by_cases hw : w.isNegative = true
  · rw [rank_of_negative hv, rank_of_negative hw] at h
    rw [if_pos hv, if_pos hw, EReal.neg_le_neg_iff]
    exact magnitude_le (by omega)
  · rw [if_pos hv, if_neg hw]
    calc -v.magnitude ≤ 0 := EReal.neg_le_zero.mpr v.magnitude_nonneg
      _ ≤ w.magnitude := w.magnitude_nonneg
  · rw [rank_of_not_negative hv, rank_of_negative hw] at h
    omega
  · rw [rank_of_not_negative hv, rank_of_not_negative hw] at h
    rw [if_neg hv, if_neg hw]
    exact magnitude_le (by omega)

theorem lt_of_amount?_lt {v w : Weight} {x y : EReal} (hx : v.amount? = some x)
    (hy : w.amount? = some y) (h : x < y) : v < w := by
  obtain ⟨_, hx⟩ := Option.ite_none_left_eq_some.mp hx
  obtain ⟨_, hy⟩ := Option.ite_none_left_eq_some.mp hy
  obtain rfl := Option.some.inj hx
  obtain rfl := Option.some.inj hy
  exact Std.not_le.mp fun hle => (amount_mono hle).not_gt h

end Amount

end Weight

/-!
The ranking of the spilled values. Every allocation has exactly one list of its spilled values with
the cheaper before the dearer and the lower of two equally cheap ones first, and this is the list
that the allocation gives, whatever patterns its weights have.
-/

namespace Allocation

variable {a : Allocation} {u v w : Value}

theorem mem_spilled : v ∈ a.spilled ↔ a.decision? v = some .spill := by
  simp only [spilled, List.mem_map, List.mem_filter, decide_eq_true_eq, Prod.exists]
  constructor
  · rintro ⟨_, _, ⟨hmem, rfl⟩, rfl⟩
    exact FiniteMap.mem_sortedEntries.mp hmem
  · intro h
    exact ⟨v, .spill, ⟨FiniteMap.mem_sortedEntries.mpr h, rfl⟩, rfl⟩

theorem spilled_strict (a : Allocation) : a.spilled.Pairwise (· < ·) :=
  a.decisions.sortedEntries_strict.sublist (List.filter_sublist.map Prod.fst)

/-- The value `u` is given up before `v`. Weights of the same cost may still differ in their bits,
and are then told apart by them. -/
def Before (a : Allocation) (u v : Value) : Prop :=
  (a.weight u).flipped < (a.weight v).flipped ∨ ((a.weight u).bits = (a.weight v).bits ∧ u < v)

theorem before_iff :
    a.Before u v ↔ a.weight u < a.weight v ∨ (a.weight u = a.weight v ∧ u < v) := by
  rw [Before, Weight.flipped_lt_iff, Weight.mk.injEq]

theorem before_asymm (h : a.Before u v) : ¬ a.Before v u := by
  rw [before_iff] at h ⊢
  rintro (hlt | ⟨heq, hlt⟩)
  · rcases h with h | ⟨h, _⟩
    · exact Std.not_gt_of_lt hlt h
    · exact Std.ne_of_lt hlt h.symm
  · rcases h with h | ⟨_, h⟩
    · exact Std.ne_of_lt h heq.symm
    · exact Std.not_gt_of_lt hlt h

theorem cheaper_iff :
    a.cheaper u v ↔ a.weight u < a.weight v ∨ (a.weight u = a.weight v ∧ u ≤ v) := by
  unfold cheaper
  split
  · rename_i heq
    rw [heq, decide_eq_true_eq]
    exact ⟨fun h => .inr ⟨rfl, h⟩, fun h => (h.resolve_left Std.lt_irrefl).2⟩
  · rename_i hne
    rw [decide_eq_true_eq]
    exact ⟨fun h => .inl (Std.lt_of_le_of_ne h hne),
      fun h => Std.le_of_lt (h.resolve_right fun h => hne h.1)⟩

/-- The list `vs` ranks the spilled values of `a`. -/
structure RanksSpilled (a : Allocation) (vs : List Value) : Prop where
  once : vs.Nodup
  spilled_iff : ∀ v, v ∈ vs ↔ a.decision? v = some .spill
  inOrder : vs.Pairwise a.Before

theorem mem_spillCandidates : v ∈ a.spillCandidates ↔ a.decision? v = some .spill :=
  mem_sortBy.trans mem_spilled

theorem spillCandidates_pairwise (a : Allocation) : a.spillCandidates.Pairwise a.Before := by
  have connected : ∀ x y : Weight, x < y ∨ x = y ∨ y < x := by
    intro x y
    by_cases heq : x = y
    · exact .inr (.inl heq)
    · rcases Std.le_total (a := x) (b := y) with h | h
      · exact .inl (Std.lt_of_le_of_ne h heq)
      · exact .inr (.inr (Std.lt_of_le_of_ne h (Ne.symm heq)))
  have sorted := sortBy_pairwise_lex a.weight (· < ·) id (fun _ _ => cheaper_iff) connected
    (fun _ _ _ => Std.lt_trans) (nodup_of_strict a.spilled_strict)
  exact sorted.imp before_iff.mpr

theorem ranksSpilled_spillCandidates (a : Allocation) : a.RanksSpilled a.spillCandidates where
  once := (sortBy_perm _ _).symm.nodup (nodup_of_strict a.spilled_strict)
  spilled_iff _ := mem_spillCandidates
  inOrder := a.spillCandidates_pairwise

/-- Two rankings of the same values are equal, since none of two values is before the other and
after it. -/
theorem RanksSpilled.eq {vs ws : List Value} (hvs : a.RanksSpilled vs) (hws : a.RanksSpilled ws) :
    vs = ws := by
  have same : ∀ v, v ∈ vs ↔ v ∈ ws := fun v => (hvs.spilled_iff v).trans (hws.spilled_iff v).symm
  have perm : vs.Perm ws := (List.perm_ext_iff_of_nodup hvs.once hws.once).mpr same
  exact perm.eq_of_pairwise (fun _ _ _ _ h h' => absurd h' (before_asymm h)) hvs.inOrder hws.inOrder

/-- The spill candidates are the one ranking of the spilled values by cost and then by number, and a
lesser number of a weight comes before a greater one. -/
theorem spill_candidates_are_the_ranking (a : Allocation) :
    (∀ vs, a.RanksSpilled vs ↔ vs = a.spillCandidates) ∧
      ∀ u v, a.decision? u = some .spill → a.decision? v = some .spill →
        ∀ x y, (a.weight u).amount? = some x → (a.weight v).amount? = some y → x < y →
          [u, v].Sublist a.spillCandidates := by
  refine ⟨?_, ?_⟩
  · intro vs
    constructor
    · exact fun h => h.eq a.ranksSpilled_spillCandidates
    · rintro rfl
      exact a.ranksSpilled_spillCandidates
  · intro u v hu hv x y hx hy hxy
    rw [pair_sublist_iff (fun _ _ => before_asymm) a.spillCandidates_pairwise]
    refine ⟨mem_spillCandidates.mpr hu, mem_spillCandidates.mpr hv, before_iff.mpr (.inl ?_)⟩
    exact Weight.lt_of_amount?_lt hx hy hxy

/-- Weights of every kind: a positive and a negative pattern that are no numbers, 1 twice, the zero
below zero, none at all, and the least of all at a value that has a register. -/
def motley : Allocation where
  decisions := .ofList [(⟨6⟩, .spill), (⟨5⟩, .assign ⟨0⟩), (⟨4⟩, .spill), (⟨0⟩, .spill),
    (⟨3⟩, .spill), (⟨2⟩, .spill), (⟨1⟩, .spill)]
  weights := .ofList [(⟨0⟩, ⟨0x8000000000000000⟩), (⟨2⟩, ⟨0xFFF8000000000000⟩),
    (⟨3⟩, ⟨0x3FF0000000000000⟩), (⟨4⟩, ⟨0x3FF0000000000000⟩), (⟨5⟩, ⟨0xFFFFFFFFFFFFFFFF⟩),
    (⟨6⟩, ⟨0x7FF8000000000000⟩)]
  preferences := ∅
  seed := 0
  extendedColors := 0

theorem motley_candidates_are_the_ranking :
    motley.spillCandidates = [⟨2⟩, ⟨0⟩, ⟨1⟩, ⟨3⟩, ⟨4⟩, ⟨6⟩] ∧
      motley.RanksSpilled [⟨2⟩, ⟨0⟩, ⟨1⟩, ⟨3⟩, ⟨4⟩, ⟨6⟩] ∧
      [⟨1⟩, ⟨3⟩].Sublist motley.spillCandidates := by
  have hlisted : motley.spillCandidates = [⟨2⟩, ⟨0⟩, ⟨1⟩, ⟨3⟩, ⟨4⟩, ⟨6⟩] := by decide +kernel
  have hzero : (motley.weight ⟨1⟩).amount? = some 0 := by
    have hweight : motley.weight ⟨1⟩ = .zero := by decide
    rw [hweight]
    simp [Weight.amount?, Weight.amount, Weight.magnitude, Weight.mantissa, Weight.zero,
      Weight.exponentField, Weight.fractionField, Weight.isNegative]
  have hone : (motley.weight ⟨3⟩).amount? = some 1 := by
    have hweight : motley.weight ⟨3⟩ = ⟨0x3FF0000000000000⟩ := by decide
    have hmantissa : (⟨0x3FF0000000000000⟩ : Weight).mantissa = 4503599627370496 := by decide
    have hexponent : (⟨0x3FF0000000000000⟩ : Weight).exponent = -52 := by decide
    have hsign : (⟨0x3FF0000000000000⟩ : Weight).isNegative = false := by decide
    have hfinite : (⟨0x3FF0000000000000⟩ : Weight).exponentField ≠ 2047 := by decide
    have hreal : ((4503599627370496 : ℕ) * 2 ^ (-52 : ℤ) : ℝ) = 1 := by norm_num
    rw [hweight, Weight.amount?, if_neg fun h => hfinite h.1, Weight.amount, hsign,
      if_neg Bool.false_ne_true, Weight.magnitude, if_neg hfinite, hmantissa, hexponent, hreal,
      EReal.coe_one]
  obtain ⟨hranking, hnumbers⟩ := spill_candidates_are_the_ranking motley
  exact ⟨hlisted, (hranking _).mpr hlisted.symm,
    hnumbers ⟨1⟩ ⟨3⟩ (by decide) (by decide) 0 1 hzero hone zero_lt_one⟩

end Allocation

end RegisterColoring
