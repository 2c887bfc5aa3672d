import NodeForest.Forest

set_option autoImplicit false

/-! # Adoption and release

Whoever takes a node in adopts it: the node's link then names the new owner. Whoever gives a node
up releases it: the link is cut, but only if it still names the releasing owner and only if the
node stands in no other place of the same sort. An owner that does not know itself gives the nodes
it adopts no link at all. -/

namespace NodeForest.Forest

/-- Makes `owner` the parent of `child`. -/
def adopt (f : Forest) (owner child : NodeId) : Forest :=
  f.modify child fun c => { c with parent? := f.self? owner }

/-- Makes `owner` the parent of every node among `children`, first to last. -/
def adoptAll (f : Forest) (owner : NodeId) (children : List (Option NodeId)) : Forest :=
  (children.filterMap id).foldl (fun f child => f.adopt owner child) f

/-- Makes `owner` the parent of the child, if there is one. -/
def adoptOption (f : Forest) (owner : NodeId) : (child : Option NodeId) → Forest
  | some child => f.adopt owner child
  | none => f

/-- Cuts the link of `child`, if it names `owner`. -/
def disown (f : Forest) (owner child : NodeId) : Forest :=
  f.modify child (·.cutLink (f.self? owner))

/-- Releases a node that has left one slot of `owner`, unless another slot holds it. -/
def releaseFromSlots (f : Forest) (owner child : NodeId) : Forest :=
  if (f.slots owner).any (·.occupant == some child) then f else f.disown owner child

/-- Releases a node that has left one position of the list `owner`, unless it stands at another
    one. Slots that the list may have do not count. -/
def releaseFromItems (f : Forest) (owner child : NodeId) : Forest :=
  if (f.items owner).contains (some child) then f else f.disown owner child

end NodeForest.Forest
