import RegisterColoring.Collection.Finite
import RegisterColoring.Problem

/-!
The operands of each instruction of a function, with an index from values to the instructions that
mention them.
-/

namespace RegisterColoring

structure Operands where
  loopDepth : Nat
  reads : List Value
  writes : List Value

namespace Operands

def mentions (o : Operands) (v : Value) : Bool := decide (v ∈ o.reads) || decide (v ∈ o.writes)

def access (o : Operands) (v : Value) : Access := ⟨decide (v ∈ o.reads), decide (v ∈ o.writes)⟩

end Operands

structure UsageTable where
  instrs : List Operands
  index : FiniteMap Value (FiniteSet Instr)

namespace UsageTable

def empty : UsageTable := ⟨[], ∅⟩

instance : Inhabited UsageTable := ⟨empty⟩

/-- The handle that the next instruction gets. -/
def nextInstr (t : UsageTable) : Instr := ⟨.ofNat t.instrs.length⟩

/-- Notes that `i` mentions `v`; noting it again changes nothing. -/
def mention (i : Instr) (index : FiniteMap Value (FiniteSet Instr)) (v : Value) :
    FiniteMap Value (FiniteSet Instr) :=
  index.insert v (((index.get? v).getD ∅).insert i)

def push (t : UsageTable) (o : Operands) : UsageTable where
  instrs := t.instrs ++ [o]
  index := (o.reads ++ o.writes).foldl (mention t.nextInstr) t.index

def size (t : UsageTable) : Nat := t.instrs.length

def instr? (t : UsageTable) (i : Instr) : Option Operands := t.instrs[i.id.toNat]?

def references (t : UsageTable) (v : Value) : List Instr := ((t.index.get? v).getD ∅).sorted

def loopDepth (t : UsageTable) (i : Instr) : Nat := ((t.instr? i).map Operands.loopDepth).getD 0

def access (t : UsageTable) (v : Value) (i : Instr) : Access :=
  ((t.instr? i).map (·.access v)).getD .none

def usage (t : UsageTable) : Usage where
  references := t.references
  loopDepth := t.loopDepth
  access := t.access

end UsageTable

end RegisterColoring
