import NodeForest.Forest
import NodeForest.Snapshot

set_option autoImplicit false

/-! # Taking a snapshot

A node has a snapshot if no circle can be reached from it through its children: then no path down
from it is longer than there are nodes, and the descent comes to an end. -/

namespace NodeForest.Forest

/-- The snapshot of what stands in one place, given that of a node. -/
def snapshotOfPlace (ofNode : NodeId → Option Snapshot) :
    Option NodeId → Option (Option Snapshot)
  | none => some none
  | some n => (ofNode n).map some

/-- The snapshot of a slot, given that of a node. -/
def snapshotOfSlot (ofNode : NodeId → Option Snapshot) (s : Slot NodeId) :
    Option (Slot Snapshot) :=
  (snapshotOfPlace ofNode s.occupant).map fun child => ⟨s.name, child⟩

/-- The snapshot of a node, if every path down from it has fewer than `depth` steps. -/
def snapshotWithin (f : Forest) : (depth : Nat) → NodeId → Option Snapshot
  | 0, _ => none
  | depth + 1, n =>
    match f.node? n with
    | none => none
    | some node =>
      match node.items? with
      | some items =>
        (items.mapM (snapshotOfPlace (f.snapshotWithin depth))).map (.list node.kind.name)
      | none =>
        (node.slots.mapM (snapshotOfSlot (f.snapshotWithin depth))).map (.node node.kind.name)

/-- The snapshot of a live node from which no circle is reached. -/
def snapshot? (f : Forest) (n : NodeId) : Option Snapshot :=
  f.snapshotWithin f.nodes.size n

end NodeForest.Forest
