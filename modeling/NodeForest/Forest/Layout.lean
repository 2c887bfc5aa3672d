import NodeForest.Forest
import NodeForest.Forest.Outcome

set_option autoImplicit false

/-! # Nodes as structured text

A node is shown with everything it holds, so only a node from which no circle is reached can be
shown. Of a list the items are shown, of any other node the slots. -/

namespace NodeForest.Forest

/-- What stands in one place, given how a node is shown. -/
def layoutOfPlace (ofNode : NodeId → Option Layout) : Option NodeId → Option Layout
  | none => some (.option none)
  | some n => (ofNode n).map fun l => .option (some l)

/-- A cell around a value that can change. -/
def cell (value : Layout) : Layout :=
  .record "RefCell" [("value", value)]

/-- A slot, given how a node is shown. -/
def layoutOfSlot (ofNode : NodeId → Option Layout) (s : Slot NodeId) : Option Layout :=
  (layoutOfPlace ofNode s.occupant).map fun value =>
    .record "ChildSlot" [("name", .string s.name), ("value", cell value)]

/-- A node, if every path down from it has fewer than `depth` steps. -/
def layoutWithin (f : Forest) : (depth : Nat) → NodeId → Option Layout
  | 0, _ => none
  | depth + 1, n =>
    match f.node? n with
    | none => none
    | some node =>
      let header := [
        ("kind", Layout.string node.kind.name),
        ("attached", Layout.bool (f.parent? n).isSome)]
      let extra :=
        match node.type.field? with
        | some field => [(field, Layout.string node.text)]
        | none => []
      match node.items? with
      | some items =>
        (items.mapM (layoutOfPlace (f.layoutWithin depth))).map fun shown =>
          let list := .record "NodeList" (header ++ [("items", cell (.sequence shown))])
          .record node.type.name (("list", list) :: extra)
      | none =>
        (node.slots.mapM (layoutOfSlot (f.layoutWithin depth))).map fun shown =>
          let base := .record "NodeBase" (header ++ [("slots", .sequence shown)])
          .record node.type.name (("base", base) :: extra)

/-- A live node from which no circle is reached. -/
def layout? (f : Forest) (n : NodeId) : Option Layout :=
  f.layoutWithin f.nodes.size n

/-- How a child was replaced, if the node that took its place can be shown. -/
def layoutOfReplacement? (f : Forest) : Replacement → Option Layout
  | .single n => (f.layout? n).map fun l => .tuple "Single" [l]
  | .spliced inserted => some (.record "Spliced" [("inserted", .nat inserted)])

/-- A slot by its owner and name, and whether something stands in it. -/
def layoutOfSlotAt (f : Forest) (owner : NodeId) (s : Slot NodeId) : Layout :=
  .record "SlotRef" [
    ("owner", .string (f.kindName owner)),
    ("name", .string s.name),
    ("occupied", .bool s.occupant.isSome)]

end NodeForest.Forest
