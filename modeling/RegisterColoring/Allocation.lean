import RegisterColoring.Collection.Finite
import RegisterColoring.Weight

/-!
The outcome of a round: the allocation, or the reason why there is none.
-/

namespace RegisterColoring

/-!
Why a round fails. A value that may be spilled and finds no register is no failure; it is a decision
of the allocation.
-/

inductive AllocError where
  /-- No register is left for a value that has to have one. -/
  | unspillable (v : Value)
  | noCandidates (v : Value)
  /-- A neighbor set names a value whose own set does not name it back. -/
  | missingArc (source target : Value)
  | selfLoop (v : Value)
  | wrongDegree (v : Value) (degree neighbors : Nat)
  /-- Both ends of an edge hold one register. -/
  | sharedRegister (a b : Value) (register : Register)
deriving DecidableEq

namespace AllocError

def kind : AllocError → String
  | unspillable _ => "UnspillableSpilled"
  | noCandidates _ => "EmptyCandidates"
  | missingArc _ _ => "AsymmetricEdge"
  | selfLoop _ => "SelfEdge"
  | wrongDegree _ _ _ => "DegreeMismatch"
  | sharedRegister _ _ _ => "ConflictingColors"

def message : AllocError → String
  | unspillable v => v.text ++ " cannot be spilled but no register is left for it"
  | noCandidates v => v.text ++ " has no candidate registers"
  | missingArc u v =>
    "interference graph is asymmetric: " ++ u.text ++ " -> " ++ v.text ++ " has no reverse edge"
  | selfLoop v => "interference graph has a self edge on " ++ v.text
  | wrongDegree v degree neighbors =>
    "degree of " ++ v.text ++ " is " ++ toString degree ++ " but it has " ++ toString neighbors ++
      " neighbors"
  | sharedRegister a b r =>
    "interfering values " ++ a.text ++ " and " ++ b.text ++ " were both assigned " ++ r.text

def inspectFields : AllocError → String
  | unspillable v => "(" ++ v.inspect ++ ")"
  | noCandidates v => "(" ++ v.inspect ++ ")"
  | missingArc u v => " \x7b from: " ++ u.inspect ++ ", to: " ++ v.inspect ++ " \x7d"
  | selfLoop v => "(" ++ v.inspect ++ ")"
  | wrongDegree v degree neighbors =>
    " \x7b vreg: " ++ v.inspect ++ ", degree: " ++ toString degree ++ ", neighbors: " ++
      toString neighbors ++ " \x7d"
  | sharedRegister a b r =>
    " \x7b a: " ++ a.inspect ++ ", b: " ++ b.inspect ++ ", reg: " ++ r.inspect ++ " \x7d"

def inspect (e : AllocError) : String := e.kind ++ e.inspectFields

end AllocError

/-!
The outcome of a round: for each live value a register or a spill, with what the next round needs to
choose among the spilled ones.
-/

inductive Decision where
  | assign (r : Register)
  | spill
deriving DecidableEq

/-- The preferences of an assigned value are its candidates from the chosen one onwards, those
before it last. -/
structure Allocation where
  decisions : FiniteMap Value Decision
  weights : FiniteMap Value Weight
  preferences : FiniteMap Value (List Register)
  seed : UInt64
  extendedColors : Nat

namespace Decision

def register? : Decision → Option Register
  | assign r => some r
  | spill => none

end Decision

namespace Allocation

def decision? (a : Allocation) (v : Value) : Option Decision := a.decisions.get? v

def assigned? (a : Allocation) (v : Value) : Option Register :=
  (a.decision? v).bind Decision.register?

def isSpilled (a : Allocation) (v : Value) : Bool := decide (a.decision? v = some .spill)

/-- A value without a weight costs nothing. -/
def weight (a : Allocation) (v : Value) : Weight := (a.weights.get? v).getD .zero

def assignments (a : Allocation) : List (Value × Register) :=
  a.decisions.sortedEntries.filterMap fun (v, d) => d.register?.map fun r => (v, r)

def spilled (a : Allocation) : List Value :=
  (a.decisions.sortedEntries.filter fun (_, d) => decide (d = .spill)).map Prod.fst

/-- Lighter values first, and of equally heavy ones the lower. -/
def cheaper (a : Allocation) (u v : Value) : Bool :=
  if a.weight u = a.weight v then decide (u ≤ v) else decide (a.weight u ≤ a.weight v)

def spillCandidates (a : Allocation) : List Value := sortBy a.cheaper a.spilled

end Allocation

end RegisterColoring
