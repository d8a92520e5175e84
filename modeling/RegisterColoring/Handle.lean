import RegisterColoring.Collection.Sorted

/-!
Handles for the things an allocation talks about. Each is a machine word behind its own type, is
ordered by that word, and is written as a letter and the word; `inspect` is the longer form that
diagnostics use.
-/

namespace RegisterColoring

/-- A symbolic value that waits for a location. -/
structure Value where
  id : UInt32
deriving DecidableEq

/-- A physical register. -/
structure Register where
  id : UInt16
deriving DecidableEq

/-- A position in the instruction list of the function being allocated. -/
structure Instr where
  id : UInt32
deriving DecidableEq

namespace Value

instance : LE Value := ⟨fun a b => a.id ≤ b.id⟩
instance : LT Value := ⟨fun a b => a.id < b.id⟩
instance : DecidableLE Value := fun a b => inferInstanceAs (Decidable (a.id ≤ b.id))
instance : DecidableLT Value := fun a b => inferInstanceAs (Decidable (a.id < b.id))

theorem le_def {a b : Value} : a ≤ b ↔ a.id ≤ b.id := .rfl
theorem lt_def {a b : Value} : a < b ↔ a.id < b.id := .rfl

instance : Std.IsLinearOrder Value :=
  isLinearOrder_of_key id (fun _ _ => le_def) fun _ _ => congrArg mk

instance : Std.LawfulOrderLT Value :=
  lawfulOrderLT_of_key id (fun _ _ => le_def) fun _ _ => lt_def

def text (v : Value) : String := "v" ++ toString v.id.toNat

def inspect (v : Value) : String := "VReg(" ++ toString v.id.toNat ++ ")"

end Value

namespace Register

instance : LE Register := ⟨fun a b => a.id ≤ b.id⟩
instance : LT Register := ⟨fun a b => a.id < b.id⟩
instance : DecidableLE Register := fun a b => inferInstanceAs (Decidable (a.id ≤ b.id))
instance : DecidableLT Register := fun a b => inferInstanceAs (Decidable (a.id < b.id))

theorem le_def {a b : Register} : a ≤ b ↔ a.id ≤ b.id := .rfl
theorem lt_def {a b : Register} : a < b ↔ a.id < b.id := .rfl

instance : Std.IsLinearOrder Register :=
  isLinearOrder_of_key id (fun _ _ => le_def) fun _ _ => congrArg mk

instance : Std.LawfulOrderLT Register :=
  lawfulOrderLT_of_key id (fun _ _ => le_def) fun _ _ => lt_def

def text (r : Register) : String := "r" ++ toString r.id.toNat

def inspect (r : Register) : String := "PhysReg(" ++ toString r.id.toNat ++ ")"

end Register

namespace Instr

instance : LE Instr := ⟨fun a b => a.id ≤ b.id⟩
instance : LT Instr := ⟨fun a b => a.id < b.id⟩
instance : DecidableLE Instr := fun a b => inferInstanceAs (Decidable (a.id ≤ b.id))
instance : DecidableLT Instr := fun a b => inferInstanceAs (Decidable (a.id < b.id))

theorem le_def {a b : Instr} : a ≤ b ↔ a.id ≤ b.id := .rfl
theorem lt_def {a b : Instr} : a < b ↔ a.id < b.id := .rfl

instance : Std.IsLinearOrder Instr :=
  isLinearOrder_of_key id (fun _ _ => le_def) fun _ _ => congrArg mk

instance : Std.LawfulOrderLT Instr :=
  lawfulOrderLT_of_key id (fun _ _ => le_def) fun _ _ => lt_def

def text (i : Instr) : String := "i" ++ toString i.id.toNat

def inspect (i : Instr) : String := "InstRef(" ++ toString i.id.toNat ++ ")"

end Instr

/-!
Colors of nodes. A real color is a place in the node's own list of candidates, so equal places of
two nodes need not be equal registers. An extended color is a number below zero that stands for
no register.
-/

inductive Color where
  | real (index : Nat)
  | extended (id : Int32)
deriving DecidableEq

namespace Color

def extendedId? : Color → Option Int32
  | real _ => none
  | extended id => some id

def isExtended (c : Color) : Bool := c.extendedId?.isSome

def inspect : Color → String
  | real index => "Real(" ++ toString index ++ ")"
  | extended id => "Extended(" ++ toString id.toInt ++ ")"

end Color

end RegisterColoring
