import NodeForest.Edit
import NodeForest.Forest.ItemCursor

set_option autoImplicit false

/-! # Editing sessions

In a session nodes are known by labels. A label is given once, when its node is created, and the
session then holds one reference to the node: it pins it. A pin can be taken away and put back; a
node that is pinned already stays pinned once. Apart from pins, a node can be held for the time of a
longer piece of work. -/

namespace NodeForest

/-- A forest whose nodes have labels. -/
structure Session where
  forest : Forest
  /-- The label of every node ever created, in order. -/
  labels : Array String
  /-- The nodes to which the session holds a reference. -/
  pinned : List NodeId

/-- Why a label does not lead to a node. -/
inductive LabelError where
  /-- No node was ever given the label. -/
  | unknown
  /-- The node with the label has been freed. -/
  | freed
  deriving DecidableEq

/-- What can be seen of a node: its label and, while it is alive, the label of its parent, the
    occupants of its slots and, for a list, its items. -/
structure NodeView where
  label : String
  content? : Option (Option String × List (Option String) × Option (List (Option String)))

namespace Session

/-- The session in which nothing has been created. -/
def empty : Session :=
  ⟨.empty, #[], []⟩

/-- The node with the label, alive or freed. -/
def find? (s : Session) (label : String) : Option NodeId :=
  s.labels.findIdx? (· == label)

/-- The live node with the label. -/
def resolve (s : Session) (label : String) : Except LabelError NodeId :=
  match s.find? label with
  | none => .error .unknown
  | some n => if s.forest.isLive n then .ok n else .error .freed

def label (s : Session) (n : NodeId) : String :=
  s.labels[n]?.getD ""

/-- Runs an edit that creates no node. The outcome shows the forest before anything is reclaimed,
    while the nodes that the edit names are still held. -/
def run (s : Session) (e : Edit) : Session × Outcome Refusal Answer :=
  ({ s with forest := (s.forest.run e).forest }, s.forest.perform e)

/-- Runs an edit that creates a node, gives the node a label and pins it. -/
def create (s : Session) (label : String) (e : Edit) : Session :=
  ⟨(s.forest.run e).forest, s.labels.push label, s.forest.nodes.size :: s.pinned⟩

/-- Pins a node. -/
def pin (s : Session) (n : NodeId) : Session :=
  if s.pinned.contains n then s
  else { (s.run (.retain n)).1 with pinned := n :: s.pinned }

/-- Takes the pin of the node with the label away; tells whether it was pinned. -/
def unpin (s : Session) (label : String) : Session × Bool :=
  match s.find? label with
  | none => (s, false)
  | some n =>
    if s.pinned.contains n then
      ({ (s.run (.letGo n)).1 with pinned := s.pinned.erase n }, true)
    else (s, false)

/-- Holds a node besides any pin. -/
def hold (s : Session) (n : NodeId) : Session :=
  (s.run (.retain n)).1

/-- Ends a hold. -/
def endHold (s : Session) (n : NodeId) : Session :=
  (s.run (.letGo n)).1

/-- What can be seen of the node `n`. -/
def viewNode (s : Session) (n : NodeId) : NodeView where
  label := s.label n
  content? :=
    (s.forest.node? n).map fun node =>
      ((s.forest.parent? n).map s.label,
        node.slots.map fun slot => slot.occupant.map s.label,
        node.items?.map fun items => items.map fun item => item.map s.label)

/-- What can be seen of every node, in the order of creation. -/
def view (s : Session) : List NodeView :=
  (List.range s.labels.size).map s.viewNode

end Session

end NodeForest
