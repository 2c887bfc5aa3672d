import NodeForest.Node

set_option autoImplicit false

/-! # Forests

A forest keeps every node ever created under its identity; a node that has been freed leaves an
empty place, so no identity is ever used again. This module holds what can be read off a forest and
the few changes that all others are made of. -/

namespace NodeForest

/-- The nodes by identity; `none` where a node has been freed. -/
structure Forest where
  nodes : Array (Option Node)
  deriving DecidableEq

namespace Forest

/-- The forest without nodes. -/
def empty : Forest :=
  ⟨#[]⟩

/-- The node called `n`, if it is alive. -/
def node? (f : Forest) (n : NodeId) : Option Node :=
  f.nodes[n]?.join

def isLive (f : Forest) (n : NodeId) : Bool :=
  (f.node? n).isSome

/-! ## Elementary changes -/

/-- Adds a node under the next identity. -/
def insert (f : Forest) (node : Node) : NodeId × Forest :=
  (f.nodes.size, ⟨f.nodes.push (some node)⟩)

/-- Changes the node called `n`, if it is alive. -/
def modify (f : Forest) (n : NodeId) (change : Node → Node) : Forest :=
  ⟨f.nodes.modify n (Option.map change)⟩

/-- Takes the node called `n` out of the forest: it holds nothing any more and is nobody's
    parent. -/
def free (f : Forest) (n : NodeId) : Forest :=
  ⟨(f.nodes.setIfInBounds n none).map (Option.map (·.cutLink (some n)))⟩

/-! ## Reading -/

def kind? (f : Forest) (n : NodeId) : Option Kind :=
  (f.node? n).map (·.kind)

/-- The name of the node's kind, as messages give it. -/
def kindName (f : Forest) (n : NodeId) : String :=
  ((f.kind? n).map Kind.name).getD ""

def slots (f : Forest) (n : NodeId) : List (Slot NodeId) :=
  ((f.node? n).map (·.slots)).getD []

def isList (f : Forest) (n : NodeId) : Bool :=
  ((f.node? n).bind (·.items?)).isSome

/-- The items of a list; none for any other node. -/
def items (f : Forest) (n : NodeId) : List (Option NodeId) :=
  ((f.node? n).bind (·.items?)).getD []

/-- What stands in the first slot called `name`; nothing if there is no such slot. -/
def child? (f : Forest) (n : NodeId) (name : String) : Option NodeId :=
  ((f.slots n).find? (·.name == name)).bind Slot.occupant

/-- The item at position `i`; nothing if that is a placeholder or beyond the end. -/
def item? (f : Forest) (n : NodeId) (i : Nat) : Option NodeId :=
  (f.items n)[i]?.join

/-- The node itself, if it knows itself. -/
def self? (f : Forest) (n : NodeId) : Option NodeId :=
  (f.node? n).bind fun node => if node.isAnchored then some n else none

/-- The parent of a node. -/
def parent? (f : Forest) (n : NodeId) : Option NodeId :=
  (f.node? n).bind (·.parent?)

/-- The children that a walk visits. -/
def children (f : Forest) (n : NodeId) : List NodeId :=
  ((f.node? n).map Node.children).getD []

/-- Whether `owner` holds `child` in a slot or as an item. -/
def holds (f : Forest) (owner child : NodeId) : Bool :=
  (f.node? owner).any (·.holds child)

end Forest

end NodeForest
