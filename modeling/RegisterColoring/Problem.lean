import RegisterColoring.Handle
import RegisterColoring.LiveRange.Basic

/-!
The input of a round: how it is to be run, and what is known about the function it works on.
-/

namespace RegisterColoring

/-!
How a round is to be run: its seed, what it does with values that find no register, how it finds the
edges of the graph, and whether it checks its own work.
-/

/-- What becomes of a value that has no register left: it shares an extended color that no
neighbor holds, or it always gets one of its own. -/
inductive Exhaustion where
  | extend
  | spillAtOnce
deriving DecidableEq

/-- Which pairs of values are tested for overlap: all of them, or those whose extents meet. -/
inductive BuildStrategy where
  | pairwise
  | sweep
deriving DecidableEq

/-- Without a seed, each run draws a fresh one. -/
structure Config where
  seed : Option UInt64
  exhaustion : Exhaustion
  build : BuildStrategy
  verify : Bool
deriving DecidableEq

def Exhaustion.inspect : Exhaustion → String
  | .extend => "Extend"
  | .spillAtOnce => "SpillImmediately"

def BuildStrategy.inspect : BuildStrategy → String
  | .pairwise => "Pairwise"
  | .sweep => "SweepLine"

namespace Config

def default : Config := ⟨none, .extend, .pairwise, true⟩

instance : Inhabited Config := ⟨default⟩

def withSeed (c : Config) (seed : UInt64) : Config := { c with seed := some seed }

def withExhaustion (c : Config) (e : Exhaustion) : Config := { c with exhaustion := e }

def withBuild (c : Config) (b : BuildStrategy) : Config := { c with build := b }

def withVerify (c : Config) (verify : Bool) : Config := { c with verify := verify }

def inspectSeed : Option UInt64 → String
  | some seed => "Some(" ++ toString seed.toNat ++ ")"
  | none => "None"

def inspect (c : Config) : String :=
  "AllocatorConfig \x7b seed: " ++ inspectSeed c.seed ++
    ", exhaustion: " ++ c.exhaustion.inspect ++
    ", build_strategy: " ++ c.build.inspect ++
    ", verify: " ++ toString c.verify ++ " \x7d"

end Config

/-!
What an allocation knows about the function it works on: which values are live together, which
registers each may occupy, and how it is used. The answers are functions, so a table and an
analysis that computes them on demand serve alike.
-/

/-- The live values of a function. `overlaps` is asked in one order of its arguments only, and
need not be symmetric; `extent` narrows the pairs that are asked about and never replaces it. -/
structure Liveness where
  values : List Value
  overlaps : Value → Value → Bool
  spillable : Value → Bool
  hasRange : Value → Bool
  extent : Value → Option Segment

/-- How one instruction uses one value. -/
structure Access where
  reads : Bool
  writes : Bool
deriving DecidableEq

namespace Access

def none : Access := ⟨false, false⟩

def count (a : Access) : Nat := a.reads.toNat + a.writes.toNat

end Access

structure Usage where
  references : Value → List Instr
  loopDepth : Instr → Nat
  access : Value → Instr → Access

structure Procedure where
  live : Liveness
  candidates : Value → List Register
  usage : Usage

end RegisterColoring
