/-!
The pseudo-random words that color choices are drawn from: a generator of 256 bits of state that is
rotated and added to, filled from a seed of 64 bits by a multiplying generator.
-/

namespace RegisterColoring

def rotateLeft64 (x k : UInt64) : UInt64 := (x <<< k) ||| (x >>> (64 - k))

def rotateRight32 (x k : UInt32) : UInt32 := (x >>> k) ||| (x <<< (32 - k))

/-- The generator that spreads a seed over more words. -/
structure SeedStream where
  state : UInt64

namespace SeedStream

def next32 (s : SeedStream) : UInt32 × SeedStream :=
  let state := s.state * 6364136223846793005 + 11634580027462260723
  let mixed := (((state >>> 18) ^^^ state) >>> 27).toUInt32
  (rotateRight32 mixed (state >>> 59).toUInt32, ⟨state⟩)

/-- The first word drawn is the low half. -/
def next64 (s : SeedStream) : UInt64 × SeedStream :=
  let (low, s) := s.next32
  let (high, s) := s.next32
  (low.toUInt64 ||| (high.toUInt64 <<< 32), s)

end SeedStream

structure Generator where
  s0 : UInt64
  s1 : UInt64
  s2 : UInt64
  s3 : UInt64
deriving DecidableEq

namespace Generator

def ofSeed (seed : UInt64) : Generator :=
  let (s0, stream) := (SeedStream.mk seed).next64
  let (s1, stream) := stream.next64
  let (s2, stream) := stream.next64
  let (s3, _) := stream.next64
  ⟨s0, s1, s2, s3⟩

/-- The next word, and the state it leaves. -/
def next (g : Generator) : UInt64 × Generator :=
  let s2 := g.s2 ^^^ g.s0
  let s3 := g.s3 ^^^ g.s1
  (rotateLeft64 (g.s0 + g.s3) 23 + g.s0,
    { s0 := g.s0 ^^^ s3
      s1 := g.s1 ^^^ s2
      s2 := s2 ^^^ (g.s1 <<< 17)
      s3 := rotateLeft64 s3 45 })

end Generator

/-!
Uniform choices. A word is multiplied by the number of choices, and the high half of the product is
the choice. A word whose low half is too large is thrown away, which leaves each choice with equally
many words. Which words count for a choice is said by `index?`, one word at a time.
-/

/-- The number of words. -/
def wordCount : Nat := Nat.pow 2 64

/-- The largest low half that counts: `n` doubled as often as it fits into a word, less one. -/
def acceptBound (n : Nat) : Nat := n * Nat.pow 2 (63 - n.log2) - 1

def index? (n : Nat) (word : UInt64) : Option Nat :=
  let product := word.toNat * n
  if product % wordCount ≤ acceptBound n then some (product / wordCount) else none

theorem index?_lt {n i : Nat} {word : UInt64} (positive : 0 < n) (h : index? n word = some i) :
    i < n := by
  simp only [index?] at h
  split at h
  · obtain rfl := Option.some.inj h
    have size : wordCount = 18446744073709551616 := rfl
    have bound := word.toNat_lt
    exact Nat.div_lt_of_lt_mul (Nat.mul_lt_mul_of_pos_right (by omega) positive)
  · exact absurd h (by simp)

namespace Generator

/-- Draws until a word counts, `fuel` times at most. -/
def drawIndex (n : Nat) : Nat → Generator → Nat × Generator
  | 0, g => (0, g)
  | fuel + 1, g =>
    let (word, g) := g.next
    match index? n word with
    | some i => (i, g)
    | none => drawIndex n fuel g

/-- As many draws as there are states: a generator that has refused them all repeats itself. -/
def maxDraws : Nat := Nat.pow 2 256

def below (g : Generator) (n : Nat) : Nat × Generator := drawIndex n maxDraws g

/-- An element of `choices`, each as likely as the others. Nothing is drawn from an empty list. -/
def pick? {α : Type} (g : Generator) (choices : List α) : Option (α × Generator) :=
  if choices.isEmpty then none
  else
    let (i, g) := g.below choices.length
    choices[i]?.map fun choice => (choice, g)

theorem drawIndex_lt {n : Nat} (positive : 0 < n) (fuel : Nat) (g : Generator) :
    (drawIndex n fuel g).1 < n := by
  induction fuel generalizing g with
  | zero => exact positive
  | succ fuel ih =>
    rw [drawIndex]
    dsimp only
    split
    · rename_i h
      exact index?_lt positive h
    · exact ih _

/-- A choice from a list that is not empty always succeeds. -/
theorem pick?_eq_none_iff {α : Type} {g : Generator} {choices : List α} :
    g.pick? choices = none ↔ choices = [] := by
  unfold pick?
  split
  · rename_i h
    exact iff_of_true rfl (List.isEmpty_iff.1 h)
  · rename_i h
    have nonempty : choices ≠ [] := fun e => h (List.isEmpty_iff.2 e)
    have bound := drawIndex_lt (List.length_pos_iff.2 nonempty) maxDraws g
    refine iff_of_false ?_ nonempty
    rw [Option.map_eq_none_iff, List.getElem?_eq_none_iff]
    exact Nat.not_le.2 bound

theorem mem_of_pick? {α : Type} {g g' : Generator} {choices : List α} {x : α}
    (h : g.pick? choices = some (x, g')) : x ∈ choices := by
  unfold pick? at h
  split at h
  · exact absurd h (by simp)
  · obtain ⟨choice, found, e⟩ := Option.map_eq_some_iff.1 h
    obtain rfl : choice = x := congrArg Prod.fst e
    exact List.mem_of_getElem? found

end Generator

end RegisterColoring
