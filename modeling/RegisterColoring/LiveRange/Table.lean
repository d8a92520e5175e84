import RegisterColoring.Collection.Finite
import RegisterColoring.Problem

/-!
A table of live ranges, one for each value of a function. A value that is not in the table has no
range, overlaps nothing, and may be spilled.
-/

namespace RegisterColoring

structure LiveRangeRow where
  range : LiveRange
  spillable : Bool
deriving DecidableEq

structure LiveRangeTable where
  rows : FiniteMap Value LiveRangeRow

namespace LiveRangeTable

def empty : LiveRangeTable := ⟨∅⟩

instance : Inhabited LiveRangeTable := ⟨empty⟩

def insert (t : LiveRangeTable) (v : Value) (r : LiveRange) : LiveRangeTable :=
  ⟨t.rows.insert v ⟨r, true⟩⟩

/-- Registers a value that has to end up in a register. -/
def insertUnspillable (t : LiveRangeTable) (v : Value) (r : LiveRange) : LiveRangeTable :=
  ⟨t.rows.insert v ⟨r, false⟩⟩

def size (t : LiveRangeTable) : Nat := t.rows.size

def range? (t : LiveRangeTable) (v : Value) : Option LiveRange :=
  (t.rows.get? v).map LiveRangeRow.range

def values (t : LiveRangeTable) : List Value := t.rows.keys.sorted

def spillable (t : LiveRangeTable) (v : Value) : Bool :=
  ((t.rows.get? v).map LiveRangeRow.spillable).getD true

def hasRange (t : LiveRangeTable) (v : Value) : Bool := (t.range? v).any fun r => !r.isEmpty

def overlaps (t : LiveRangeTable) (u v : Value) : Bool :=
  match t.range? u, t.range? v with
  | some r, some s => r.overlaps s
  | _, _ => false

def extent (t : LiveRangeTable) (v : Value) : Option Segment := (t.range? v).bind LiveRange.extent?

def liveness (t : LiveRangeTable) : Liveness where
  values := t.values
  overlaps := t.overlaps
  spillable := t.spillable
  hasRange := t.hasRange
  extent := t.extent

end LiveRangeTable

end RegisterColoring
