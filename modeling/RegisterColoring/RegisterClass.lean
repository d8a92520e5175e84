import RegisterColoring.Collection.Finite
import RegisterColoring.Handle

/-!
Register classes: named, ordered lists of interchangeable registers. The candidates of a value are
the registers of its class in class order, without the reserved ones.
-/

namespace RegisterColoring

structure RegisterClass where
  name : String
  registers : List Register

/-- The place of a class in its table. A place need not be taken. -/
structure ClassId where
  index : UInt32
deriving DecidableEq

structure RegisterClassTable where
  classes : List RegisterClass
  classOf : FiniteMap Value ClassId
  reserved : FiniteSet Register

namespace RegisterClassTable

def empty : RegisterClassTable := ⟨[], ∅, ∅⟩

instance : Inhabited RegisterClassTable := ⟨empty⟩

/-- The place that the next class gets. -/
def nextId (t : RegisterClassTable) : ClassId := ⟨.ofNat t.classes.length⟩

def addClass (t : RegisterClassTable) (c : RegisterClass) : RegisterClassTable :=
  { t with classes := t.classes ++ [c] }

def setClass (t : RegisterClassTable) (v : Value) (id : ClassId) : RegisterClassTable :=
  { t with classOf := t.classOf.insert v id }

/-- Keeps a register out of every candidate list. -/
def reserve (t : RegisterClassTable) (r : Register) : RegisterClassTable :=
  { t with reserved := t.reserved.insert r }

def class? (t : RegisterClassTable) (id : ClassId) : Option RegisterClass :=
  t.classes[id.index.toNat]?

def classOf? (t : RegisterClassTable) (v : Value) : Option ClassId := t.classOf.get? v

def isReserved (t : RegisterClassTable) (r : Register) : Bool := decide (r ∈ t.reserved)

def candidates (t : RegisterClassTable) (v : Value) : List Register :=
  match (t.classOf? v).bind t.class? with
  | some c => c.registers.filter fun r => !t.isReserved r
  | none => []

end RegisterClassTable

end RegisterColoring
