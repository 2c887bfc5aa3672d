import NodeForest.Snapshot
import NodeForest.Json.Compact

set_option autoImplicit false

/-! # Snapshots as JSON

A snapshot is written as an object whose first member, `shape`, says whether it is a node or a
list; the kind and the content follow. An empty slot or position is `null`. -/

namespace NodeForest.Snapshot

mutual

/-- The JSON value of a snapshot. -/
def toJson : Snapshot → Json
  | node kind slots =>
    .object [("shape", .string "node"), ("kind", .string kind),
      ("slots", .array (slotsToJson slots))]
  | list kind items =>
    .object [("shape", .string "list"), ("kind", .string kind),
      ("items", .array (itemsToJson items))]

def slotsToJson : List (Slot Snapshot) → List Json
  | [] => []
  | ⟨name, child⟩ :: rest =>
    .object [("name", .string name), ("child", childToJson child)] :: slotsToJson rest

def itemsToJson : List (Option Snapshot) → List Json
  | [] => []
  | child :: rest => childToJson child :: itemsToJson rest

def childToJson : Option Snapshot → Json
  | none => .null
  | some s => s.toJson

end

/-- The JSON text of a snapshot. -/
def text (s : Snapshot) : String :=
  s.toJson.compact

end NodeForest.Snapshot
