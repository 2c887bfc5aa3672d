import NodeForest.Forest

set_option autoImplicit false

/-! # Reading the items of a list one at a time

An item cursor remembers how many items it has given. Each step reads the list as it is then, so
the list may be edited between steps; a cursor that has come to the end goes on if the list has
grown past it. -/

namespace NodeForest

/-- A place in a list: how many items have been given. -/
structure ItemCursor where
  list : NodeId
  index : Nat
  deriving DecidableEq

/-- The cursor of a list that has given nothing yet. -/
def ItemCursor.start (list : NodeId) : ItemCursor :=
  ⟨list, 0⟩

/-- The next item, if the list has one, and the cursor after it. -/
def ItemCursor.next (c : ItemCursor) (f : Forest) : Option (Option NodeId) × ItemCursor :=
  match (f.items c.list)[c.index]? with
  | some item => (some item, { c with index := c.index + 1 })
  | none => (none, c)

end NodeForest
