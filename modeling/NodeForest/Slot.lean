set_option autoImplicit false

/-! # Child slots

A slot has a name and holds at most one child. What a child is depends on where the slot stands: a
node of a forest names its children, a snapshot contains them. -/

namespace NodeForest

/-- A named place for one child. -/
structure Slot (Child : Type) where
  name : String
  occupant : Option Child
  deriving DecidableEq

/-- The place of the first slot called `name`. -/
def Slot.index? {Child : Type} (slots : List (Slot Child)) (name : String) : Option Nat :=
  slots.findIdx? (·.name == name)

end NodeForest
