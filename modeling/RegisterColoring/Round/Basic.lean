import RegisterColoring.Graph
import RegisterColoring.Random

/-!
Allocation rounds: the events they report, their state, their check of themselves, and their text.
-/

namespace RegisterColoring

/-!
What a round reports while it runs. An event keeps the facts; its text is made from them.
-/

inductive LogLevel where
  | debug
  | trace
deriving DecidableEq

inductive Event where
  | roundStarted (seed : UInt64) (marked : Nat)
  /-- The sweep needs the extents of all values, and one is missing. -/
  | extentsMissing
  | graphBuilt (nodes edges : Nat)
  | graphDumped (dump : String)
  | extendedCreated (id : Int32)
  | nodeColored (v : Value) (degree : Nat) (color : Color)
  | coloringDone (nodes exhausted extended : Nat)
  | coloringDumped (dump : String)
  | spilling (v : Value) (weight : Weight)
deriving DecidableEq

def LogLevel.text : LogLevel → String
  | .debug => "debug"
  | .trace => "trace"

namespace Event

def level : Event → LogLevel
  | graphDumped _ | nodeColored _ _ _ | coloringDumped _ => .trace
  | _ => .debug

def message : Event → String
  | roundStarted seed marked =>
    "allocation round: seed " ++ toString seed.toNat ++ ", " ++ toString marked ++
      " pre-spilled values"
  | extentsMissing => "missing live range extents, building pairwise"
  | graphBuilt nodes edges =>
    "interference graph: " ++ toString nodes ++ " nodes, " ++ toString edges ++ " edges"
  | graphDumped dump => dump
  | extendedCreated id => "created extended color " ++ toString id.toInt
  | nodeColored v degree color =>
    v.text ++ " (degree " ++ toString degree ++ ") -> " ++ color.inspect
  | coloringDone nodes exhausted extended =>
    "colored " ++ toString nodes ++ " nodes, " ++ toString exhausted ++ " out of registers (" ++
      toString extended ++ " extended colors)"
  | coloringDumped dump => dump
  | spilling v weight => "spilling " ++ v.text ++ " (weight " ++ weight.text ++ ")"

def text (e : Event) : String := e.level.text ++ ": " ++ e.message

end Event

/-!
The state of an allocation round. It lives on after a run, so that the outcome can be looked at, and
the next run starts by emptying it.
-/

/-- `pool` holds the extended colors created so far, the newest last; `marked` the values that an
earlier decision sent to memory. -/
structure Round where
  config : Config
  graph : Graph
  weights : FiniteMap Value Weight
  candidates : FiniteMap Value (List Register)
  colors : FiniteMap Value Color
  pool : List Int32
  marked : FiniteSet Value
  seed : UInt64
  generator : Generator
  log : List Event

namespace Round

/-- A round without a configured seed starts from zero and draws one when it runs. -/
def new (config : Config) : Round where
  config := config
  graph := .empty
  weights := ∅
  candidates := ∅
  colors := ∅
  pool := []
  marked := ∅
  seed := config.seed.getD 0
  generator := .ofSeed (config.seed.getD 0)
  log := []

instance : Inhabited Round := ⟨new .default⟩

/-- Keeps a value out of the next run, which reports it as spilled. -/
def mark (r : Round) (v : Value) : Round := { r with marked := r.marked.insert v }

def color? (r : Round) (v : Value) : Option Color := r.colors.get? v

def weight? (r : Round) (v : Value) : Option Weight := r.weights.get? v

def candidatesOf (r : Round) (v : Value) : List Register := (r.candidates.get? v).getD []

/-- The register that the color of `v` stands for, if it stands for one. -/
def resolved? (r : Round) (v : Value) : Option Register :=
  match r.color? v with
  | some (.real index) => (r.candidatesOf v)[index]?
  | _ => none

def note (r : Round) (e : Event) : Round := { r with log := r.log ++ [e] }

/-- Empties everything that belongs to one run. -/
def clear (r : Round) : Round :=
  { r with graph := .empty, weights := ∅, candidates := ∅, colors := ∅, pool := [] }

/-- Starts the generator afresh, from the configured seed or else from the one drawn. -/
def reseed (r : Round) (drawn : UInt64) : Round :=
  { r with
    seed := r.config.seed.getD drawn
    generator := .ofSeed (r.config.seed.getD drawn) }

end Round

/-!
The check of a colored round: its graph is sound, and no edge joins two values that hold one
register. Extended colors stand for no register, so neighbors may share one.
-/

namespace Round

def edgeFault? (r : Round) (e : Edge) : Option AllocError :=
  match r.resolved? e.low, r.resolved? e.high with
  | some a, some b => if a = b then some (.sharedRegister e.low e.high a) else none
  | _, _ => none

def coloringFault? (r : Round) : Option AllocError :=
  r.graph.edges.sorted.findSome? r.edgeFault?

def fault? (r : Round) : Option AllocError := r.graph.fault?.or r.coloringFault?

end Round

/-!
A round as text: the graph with the color of each node, and a summary on one line.
-/

namespace Round

/-- A real color is written with its register, or with a question mark if it stands for none. -/
def colorText (r : Round) (v : Value) : String :=
  match r.color? v with
  | some (.real index) =>
    " -- COLOR => " ++ toString index ++ "::" ++ ((r.resolved? v).map Register.text).getD "?"
  | some (.extended id) => " -- EXTENDED COLOR => " ++ toString id.toInt
  | none => " -- UNCOLORED"

def dumpColoring (r : Round) : String :=
  framed (" Interference Graph (colored, seed " ++ toString r.seed.toNat ++ "):")
    (r.graph.nodes.sorted.map fun v => r.graph.nodeText v ++ r.colorText v)

def inspect (r : Round) : String :=
  "AllocationRound \x7b config: " ++ r.config.inspect ++
    ", seed: " ++ toString r.seed.toNat ++
    ", nodes: " ++ toString r.graph.nodeCount ++
    ", edges: " ++ toString r.graph.edgeCount ++
    ", extended_colors: [" ++
    String.intercalate ", " (r.pool.map fun id => toString id.toInt) ++ "] \x7d"

end Round

end RegisterColoring
