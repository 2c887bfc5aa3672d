import NodeForest.Kind
import NodeForest.Slot

set_option autoImplicit false

/-! # Nodes

A node refers to other nodes by identity. It owns what stands in its slots and, if it is a list,
among its items; the link to its parent owns nothing. A list whose kind declares slots has both
slots and items. -/

namespace NodeForest

/-- What tells one node from another for as long as a forest exists. -/
abbrev NodeId := Nat

/-- The concrete type that a node is built as: its name, and the name of its text field if it has
    one. It is independent of the node's kind. -/
structure NodeType where
  name : String
  field? : Option String
  deriving DecidableEq

/-- What a node is made from. -/
structure NodeSpec where
  type : NodeType
  kind : Kind
  /-- The value of the text field; without effect if the type has none. -/
  text : String
  isList : Bool
  /-- Whether the node knows itself. One that does not cannot tell its children who holds them. -/
  isAnchored : Bool

/-- A node. -/
structure Node where
  type : NodeType
  kind : Kind
  text : String
  isAnchored : Bool
  slots : List (Slot NodeId)
  /-- The items of a list, where `none` is a placeholder; absent for a node that is no list. -/
  items? : Option (List (Option NodeId))
  /-- Who adopted the node last and has not released it since. The link does not keep that node
      alive; when that node is freed, the link is cut. -/
  parent? : Option NodeId
  /-- How many references to the node callers hold. -/
  callers : Nat
  deriving DecidableEq

namespace Node

/-- A new node: every slot of its kind empty, no items, no parent, and one caller. -/
def fresh (spec : NodeSpec) : Node where
  type := spec.type
  kind := spec.kind
  text := spec.text
  isAnchored := spec.isAnchored
  slots := spec.kind.slots.map fun name => ⟨name, none⟩
  items? := if spec.isList then some [] else none
  parent? := none
  callers := 1

/-- The value of the text field, if the node's type has one. -/
def text? (n : Node) : Option String :=
  n.type.field?.map fun _ => n.text

/-- Everything that stands in a slot or at a position, in order. -/
def occupants (n : Node) : List (Option NodeId) :=
  n.slots.map Slot.occupant ++ n.items?.getD []

/-- Whether `child` stands in one of the slots or among the items. -/
def holds (n : Node) (child : NodeId) : Bool :=
  n.occupants.contains (some child)

/-- The children that a walk visits: the items of a list, the slots of any other node, without
    empty places. -/
def children (n : Node) : List NodeId :=
  match n.items? with
  | some items => items.filterMap id
  | none => n.slots.filterMap Slot.occupant

/-- The node with another occupant in the slot at place `i`. -/
def setSlot (n : Node) (i : Nat) (value : Option NodeId) : Node :=
  { n with slots := n.slots.modify i fun s => { s with occupant := value } }

/-- The node with other items. -/
def setItems (n : Node) (items : List (Option NodeId)) : Node :=
  { n with items? := some items }

/-- The node without its link to `parent`, if it has that link. -/
def cutLink (n : Node) (parent : Option NodeId) : Node :=
  if n.parent? = parent then { n with parent? := none } else n

end Node

end NodeForest
