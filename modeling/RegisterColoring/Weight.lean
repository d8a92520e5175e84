import RegisterColoring.Problem

/-!
Spill weights: what it costs to keep a value in memory. A weight is a binary floating-point number
of 64 bits, kept as its bits so that every pattern, the signed zeros and the NaNs included, is a
weight of its own. Weights are ordered by `rank`, which puts all patterns in one line.
-/

namespace RegisterColoring

structure Weight where
  bits : UInt64
deriving DecidableEq

namespace Weight

def zero : Weight := ⟨0⟩

def ofFloat (x : Float) : Weight := ⟨x.toBits⟩

/-- The patterns with the sign bit are those from here on. -/
def signBit : Nat := Nat.pow 2 63

def isNegative (w : Weight) : Bool := decide (signBit ≤ w.bits.toNat)

theorem isNegative_iff {w : Weight} : w.isNegative ↔ signBit ≤ w.bits.toNat :=
  decide_eq_true_iff

/-- Without the sign bit the patterns count upwards from zero to infinity and the NaNs; with it
they count downwards from one below zero. -/
def rank (w : Weight) : Int :=
  if w.isNegative then signBit - 1 - w.bits.toNat else w.bits.toNat

theorem rank_injective {v w : Weight} (h : v.rank = w.rank) : v = w := by
  obtain ⟨v⟩ := v
  obtain ⟨w⟩ := w
  have hv := v.toNat_lt
  have hw := w.toNat_lt
  have size : signBit = 9223372036854775808 := rfl
  simp only [rank, isNegative_iff] at h
  have : v.toNat = w.toNat := by split at h <;> split at h <;> omega
  rw [UInt64.toNat_inj.1 this]

instance : LE Weight := ⟨fun v w => v.rank ≤ w.rank⟩
instance : LT Weight := ⟨fun v w => v.rank < w.rank⟩
instance : DecidableLE Weight := fun v w => inferInstanceAs (Decidable (v.rank ≤ w.rank))
instance : DecidableLT Weight := fun v w => inferInstanceAs (Decidable (v.rank < w.rank))

theorem le_def {v w : Weight} : v ≤ w ↔ v.rank ≤ w.rank := .rfl
theorem lt_def {v w : Weight} : v < w ↔ v.rank < w.rank := .rfl

instance : Std.IsLinearOrder Weight :=
  isLinearOrder_of_key rank (fun _ _ => le_def) fun _ _ => rank_injective

instance : Std.LawfulOrderLT Weight :=
  lawfulOrderLT_of_key rank (fun _ _ => le_def) fun _ _ => lt_def

end Weight

/-!
The cost of a value: each instruction that references it adds its accesses, ten times more for each
loop around it.
-/

/-- Deeper loops cost no more than this depth. -/
def maxLoopDepth : Nat := 35

structure CostTerm where
  accesses : Nat
  depth : Nat
deriving DecidableEq

/-- The operations that a cost is computed with. They may round, so no laws are asked of them. -/
structure Arithmetic (α : Type) where
  empty : α
  ofNat : Nat → α
  add : α → α → α
  mul : α → α → α
  powTen : Nat → α

/-- Multiplies `acc` by `base` to the `n`, squaring `base` once for each bit of `n`. Where products
are rounded, their order is part of the result. -/
def mulPow {α : Type} (mul : α → α → α) (acc base : α) (n : Nat) : α :=
  let acc := if n % 2 = 1 then mul acc base else acc
  if n / 2 = 0 then acc else mulPow mul acc (mul base base) (n / 2)
termination_by n
decreasing_by omega

namespace Arithmetic

/-- An empty sum of floating-point numbers is the negative zero, which is neutral for addition. -/
def rounded : Arithmetic Float where
  empty := -0.0
  ofNat := Float.ofNat
  add := (· + ·)
  mul := (· * ·)
  powTen := mulPow (· * ·) 1.0 10.0

variable {α : Type}

def addTerm (A : Arithmetic α) (sum : α) (t : CostTerm) : α :=
  A.add sum (A.mul (A.ofNat t.accesses) (A.powTen t.depth))

def total (A : Arithmetic α) (ts : List CostTerm) : α := ts.foldl A.addTerm A.empty

end Arithmetic

namespace Usage

def costTerms (u : Usage) (v : Value) : List CostTerm :=
  (u.references v).map fun i => ⟨(u.access v i).count, min (u.loopDepth i) maxLoopDepth⟩

def cost {α : Type} (u : Usage) (A : Arithmetic α) (v : Value) : α := A.total (u.costTerms v)

def weight (u : Usage) (v : Value) : Weight := .ofFloat (u.cost .rounded v)

end Usage

/-!
The shortest decimal inside an interval. The interval surrounds a value, all three given as
multiples of one unit `2 ^ -scale`; a decimal is looked for on ever finer grids of powers of ten,
and the first grid that has a point inside decides the number of digits.
-/

/-- The numbers from `low` to `high` around `value`, in units of `2 ^ -scale`. -/
structure DecimalInterval where
  low : Nat
  value : Nat
  high : Nat
  scale : Nat
  closed : Bool

namespace DecimalInterval

/-- Whether `point / 10 ^ scale` lies inside, `point` counted in the interval's unit. -/
def holds (d : DecimalInterval) (point : Nat) : Bool :=
  let low := d.low * Nat.pow 10 d.scale
  let high := d.high * Nat.pow 10 d.scale
  if d.closed then decide (low ≤ point) && decide (point ≤ high)
  else decide (low < point) && decide (point < high)

/-- The point of the grid of multiples of `step` that is nearest to the value, of the two around
it that lie inside. A tie goes to the upper one. -/
def nearest? (d : DecimalInterval) (step : Nat) : Option Nat :=
  let value := d.value * Nat.pow 10 d.scale
  let lower := value / step
  let upper := lower + 1
  let isLower := d.holds (lower * step)
  let isUpper := d.holds (upper * step)
  if isUpper && (!isLower || decide (step ≤ 2 * (value % step))) then some upper
  else if isLower then some lower
  else none

/-- Tries the grids from `10 ^ (n - scale)` downwards. On the last, `10 ^ -scale`, the value itself
is a point. -/
def search (d : DecimalInterval) : Nat → Nat × Int
  | 0 => (d.value * Nat.pow 10 d.scale / Nat.pow 2 d.scale, -d.scale)
  | n + 1 =>
    match d.nearest? (Nat.pow 10 (n + 1) * Nat.pow 2 d.scale) with
    | some digits => (digits, n + 1 - d.scale)
    | none => d.search n

/-- The digits and the exponent of the shortest decimal inside. The search starts above the
leading digit of the value. -/
def shortest (d : DecimalInterval) : Nat × Int :=
  d.search (d.scale + (d.value / Nat.pow 2 d.scale).log2 / 3 + 1)

end DecimalInterval

/-- Writes `digits * 10 ^ exponent` without an exponent: with zeros up to the units, or with a
point and at least one digit before it. -/
def positional (digits : Nat) (exponent : Int) : String :=
  let written := (toString digits).toList
  if 0 ≤ exponent then String.ofList (written ++ List.replicate exponent.toNat '0')
  else
    let places := (-exponent).toNat
    let padded := List.replicate (places + 1 - written.length) '0' ++ written
    let whole := padded.length - places
    String.ofList (padded.take whole ++ '.' :: padded.drop whole)

/-!
Weights as text: the shortest decimal that reads back as the weight, written out to the units.
-/

namespace Weight

/-- The fraction takes the low 52 bits, and the exponent the 11 above them. -/
def fractionSize : Nat := Nat.pow 2 52

def exponentField (w : Weight) : Nat := w.bits.toNat / fractionSize % 2048

def fractionField (w : Weight) : Nat := w.bits.toNat % fractionSize

/-- The reals that round to the magnitude of a finite weight. Rounding goes to the even mantissa,
so the ends belong to an even one; below a power of two the gap to the next number is halved. -/
def interval (w : Weight) : DecimalInterval :=
  let normal := decide (w.exponentField ≠ 0)
  let mantissa := if normal then w.fractionField + fractionSize else w.fractionField
  let exponent : Int := if normal then w.exponentField - 1075 else -1074
  let gapBelow := if w.fractionField = 0 ∧ 1 < w.exponentField then 1 else 2
  let power := Nat.pow 2 exponent.toNat
  { low := (4 * mantissa - gapBelow) * power
    value := 4 * mantissa * power
    high := (4 * mantissa + 2) * power
    scale := 2 + (-exponent).toNat
    closed := decide (mantissa % 2 = 0) }

def magnitudeText (w : Weight) : String :=
  if w.exponentField = 0 ∧ w.fractionField = 0 then "0"
  else
    let (digits, exponent) := w.interval.shortest
    positional digits exponent

def text (w : Weight) : String :=
  let sign := if w.isNegative then "-" else ""
  if w.exponentField = 2047 then
    if w.fractionField = 0 then sign ++ "inf" else "NaN"
  else sign ++ w.magnitudeText

end Weight

end RegisterColoring
