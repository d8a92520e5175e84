import RegisterColoring.Round.Basic

/-!
A run of a round in its stages: the preparation, the coloring pass, the outcome, and all of them one
after the other.
-/

namespace RegisterColoring

/-!
What a round knows before it colors: the graph, the weights, and the candidates of each node.
-/

namespace Round

def buildPairwise (r : Round) (live : Liveness) (vs : List Value) : Round :=
  { r with graph := r.graph.addEdges (live.pairwise vs) }

def buildSweep (r : Round) (live : Liveness) (es : List Extent) : Round :=
  { r with graph := r.graph.addEdges (live.sweep es) }

/-- Finds the edges among `vs`. A sweep that lacks an extent falls back to all pairs. -/
def buildEdges (r : Round) (live : Liveness) (vs : List Value) : Round :=
  match r.config.build with
  | .pairwise => r.buildPairwise live vs
  | .sweep =>
    match live.extents? vs with
    | some es => r.buildSweep live es
    | none => (r.note .extentsMissing).buildPairwise live vs

def noteGraph (r : Round) : Round := r.note (.graphBuilt r.graph.nodeCount r.graph.edgeCount)

def build (r : Round) (live : Liveness) (marked : FiniteSet Value) : Round :=
  let vs := live.nodes marked
  ({ r with graph := r.graph.addNodes vs }.buildEdges live vs).noteGraph

/-- Marked values are weighed too: the weight goes with the decision to spill them. -/
def weigh (r : Round) (usage : Usage) (marked : FiniteSet Value) : Round :=
  { r with
    weights := (r.graph.nodes.sorted ++ marked.sorted).foldl
      (fun ws v => ws.insert v (usage.weight v)) r.weights }

/-- The lowest node that has no candidates. -/
def starved? (r : Round) (candidates : Value → List Register) : Option Value :=
  r.graph.nodes.sorted.find? fun v => (candidates v).isEmpty

def candidateFault? (r : Round) (candidates : Value → List Register) : Option AllocError :=
  (r.starved? candidates).map .noCandidates

/-- Stores the candidates of the nodes below the first that has none, each list ascending and
without repetitions. -/
def storeCandidates (r : Round) (candidates : Value → List Register) : Round :=
  { r with
    candidates := (r.graph.nodes.sorted.takeWhile fun v => !(candidates v).isEmpty).foldl
      (fun cs v => cs.insert v (FiniteSet.ofList (candidates v)).sorted) r.candidates }

end Round

/-!
The coloring pass. Each node is colored once and never again: with a candidate that no neighbor
holds, else with an extended color that no neighbor holds, else with a new extended color. Where
there is a choice it is drawn.
-/

namespace Round

/-- Only neighbors that have a color already are in the way. -/
def takenRegisters (r : Round) (v : Value) : List Register :=
  (r.graph.neighbors v).elems.filterMap r.resolved?

def takenExtended (r : Round) (v : Value) : List Int32 :=
  (r.graph.neighbors v).elems.filterMap fun n => (r.color? n).bind Color.extendedId?

/-- The places of the candidates that no neighbor holds. -/
def freeIndices (r : Round) (v : Value) : List Nat :=
  ((r.candidatesOf v).zipIdx.filter fun c => decide (c.1 ∉ r.takenRegisters v)).map Prod.snd

/-- The extended colors that `v` may share. -/
def freeExtended (r : Round) (v : Value) : List Int32 :=
  match r.config.exhaustion with
  | .extend => r.pool.filter fun id => decide (id ∉ r.takenExtended v)
  | .spillAtOnce => []

/-- One below the newest. -/
def nextExtended (r : Round) : Int32 :=
  match r.pool.getLast? with
  | some newest => newest - 1
  | none => -1

def createExtended (r : Round) : Int32 × Round :=
  let id := r.nextExtended
  (id, { r with pool := r.pool ++ [id] }.note (.extendedCreated id))

def selectColor (r : Round) (v : Value) : Color × Round :=
  match r.generator.pick? (r.freeIndices v) with
  | some (index, g) => (.real index, { r with generator := g })
  | none =>
    match r.generator.pick? (r.freeExtended v) with
    | some (id, g) => (.extended id, { r with generator := g })
    | none =>
      let (id, r) := r.createExtended
      (.extended id, r)

def setColor (r : Round) (v : Value) (c : Color) : Round :=
  { r with colors := r.colors.insert v c }

def colorNode (r : Round) (v : Value) : Round :=
  let (c, r) := r.selectColor v
  (r.setColor v c).note (.nodeColored v (r.graph.degree v) c)

def colorAll (r : Round) (order : List Value) : Round := order.foldl colorNode r

theorem colorAll_cons (r : Round) (v : Value) (vs : List Value) :
    r.colorAll (v :: vs) = (r.colorNode v).colorAll vs := rfl

theorem colorAll_append (r : Round) (us vs : List Value) :
    r.colorAll (us ++ vs) = (r.colorAll us).colorAll vs := List.foldl_append

end Round

/-!
The outcome of a colored round. Every colored value has a fate, and so has every marked one that
needs a location; a fate may turn out to be a failure, and the first failure is the outcome.
-/

inductive Fate where
  /-- The candidates from the assigned register onwards, those before it last. -/
  | assigned (r : Register) (preference : List Register)
  /-- A real color that is no place in the list of candidates. -/
  | unresolved
  | spilled
deriving DecidableEq

namespace Fate

def decision? : Fate → Option Decision
  | assigned r _ => some (.assign r)
  | unresolved => none
  | spilled => some .spill

def preference? : Fate → Option (List Register)
  | assigned _ ps => some ps
  | _ => none

end Fate

def Liveness.failure? (live : Liveness) (v : Value) : Fate → Option AllocError
  | .assigned _ _ => none
  | .unresolved => some (.noCandidates v)
  | .spilled => if live.spillable v then none else some (.unspillable v)

namespace Round

def fateOf (r : Round) (v : Value) : Color → Fate
  | .real index =>
    match (r.candidatesOf v)[index]? with
    | some register => .assigned register ((r.candidatesOf v).rotateLeft index)
    | none => .unresolved
  | .extended _ => .spilled

/-- The marked values that need a location. -/
def markedLive (live : Liveness) (marked : FiniteSet Value) : List Value :=
  marked.sorted.filter fun v => decide (v ∈ live.values) && live.hasRange v

/-- Colored values come first, then marked ones, each ascending. -/
def fates (r : Round) (live : Liveness) (marked : FiniteSet Value) : List (Value × Fate) :=
  r.colors.sortedEntries.map (fun e => (e.1, r.fateOf e.1 e.2)) ++
    (markedLive live marked).map fun v => (v, .spilled)

def spillEvent (r : Round) (v : Value) : Event := .spilling v ((r.weight? v).getD .zero)

/-- Reports the spills that come before the first failure. -/
def noteSpills (r : Round) (live : Liveness) (fs : List (Value × Fate)) : Round :=
  { r with
    log := r.log ++
      ((fs.takeWhile fun f => (live.failure? f.1 f.2).isNone).filter fun f =>
        decide (f.2 = .spilled)).map fun f => r.spillEvent f.1 }

/-- Of two fates of one value the later one decides; a preference is kept all the same. -/
def allocation (r : Round) (fs : List (Value × Fate)) : Allocation where
  decisions := .ofList (fs.filterMap fun f => f.2.decision?.map fun d => (f.1, d))
  weights := r.weights
  preferences := .ofList (fs.filterMap fun f => f.2.preference?.map fun ps => (f.1, ps))
  seed := r.seed
  extendedColors := r.pool.length

def resolve (r : Round) (live : Liveness) (marked : FiniteSet Value) :
    Except AllocError Allocation × Round :=
  let fs := r.fates live marked
  match fs.findSome? fun f => live.failure? f.1 f.2 with
  | some e => (.error e, r.noteSpills live fs)
  | none => (.ok (r.allocation fs), r.noteSpills live fs)

end Round

/-!
One run of a round: build, weigh, color, check and resolve. The run takes the marks away, whether
it succeeds or fails, and leaves what it had stored when it ended.
-/

namespace Round

/-- `drawn` is the seed for a round that has none configured. -/
def start (r : Round) (drawn : UInt64) : Round :=
  let fresh := { r.clear.reseed drawn with marked := ∅, log := [] }
  fresh.note (.roundStarted fresh.seed r.marked.size)

/-- The round with its graph and its weights. -/
def prepare (r : Round) (p : Procedure) (drawn : UInt64) : Round :=
  let built := (r.start drawn).build p.live r.marked
  (built.note (.graphDumped built.graph.dump)).weigh p.usage r.marked

/-- The round as it stands when the coloring pass begins, or when a node without candidates ends
the run before it. -/
def load (r : Round) (p : Procedure) (drawn : UInt64) : Round :=
  (r.prepare p drawn).storeCandidates p.candidates

def summarize (r : Round) : Round :=
  let exhausted := r.colors.values.countP Color.isExtended
  (r.note (.coloringDone r.colors.size exhausted r.pool.length)).note
    (.coloringDumped r.dumpColoring)

/-- The coloring pass over all nodes, in the order of their degrees. -/
def colorGraph (r : Round) : Round := (r.colorAll r.graph.byDegree).summarize

def checked? (r : Round) : Option AllocError := if r.config.verify then r.fault? else none

def run (r : Round) (p : Procedure) (drawn : UInt64) : Except AllocError Allocation × Round :=
  let loaded := r.load p drawn
  match loaded.candidateFault? p.candidates with
  | some e => (.error e, loaded)
  | none =>
    let colored := loaded.colorGraph
    match colored.checked? with
    | some e => (.error e, colored)
    | none => colored.resolve p.live r.marked

end Round

/-- One run of a new round. -/
def allocate (config : Config) (p : Procedure) (drawn : UInt64) : Except AllocError Allocation :=
  ((Round.new config).run p drawn).1

end RegisterColoring
