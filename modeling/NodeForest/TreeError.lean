import NodeForest.Text.Layout

set_option autoImplicit false

/-! # Errors in the use of a tree

Each one means that a caller's picture of the tree is wrong: a stale owner or child, a node without
a parent. Nodes are named by their kinds. -/

namespace NodeForest

inductive TreeError where
  /-- The owner holds the child in none of the places where it was looked for. -/
  | notAChild (owner child : String)
  /-- The node has no parent that could replace it. -/
  | noParent (kind : String)
  | unknownSlot (kind slot : String)
  /-- The node would become its own child. -/
  | selfReference (kind : String)
  deriving DecidableEq

namespace TreeError

/-- The text of the error. -/
def message : TreeError → String
  | notAChild owner child => child ++ " is not a child of " ++ owner
  | noParent kind => kind ++ " has no parent"
  | unknownSlot kind slot => kind ++ " declares no child slot named `" ++ slot ++ "`"
  | selfReference kind => kind ++ " cannot be installed as its own child"

/-- The error as structured text. -/
def layout : TreeError → Layout
  | notAChild owner child =>
    .record "NotAChild" [("owner", .string owner), ("child", .string child)]
  | noParent kind => .record "NoParent" [("kind", .string kind)]
  | unknownSlot kind slot =>
    .record "UnknownSlot" [("kind", .string kind), ("slot", .string slot)]
  | selfReference kind => .record "SelfReference" [("kind", .string kind)]

end TreeError

end NodeForest
