import NodeForest.Kind
import NodeForest.Text.Layout

set_option autoImplicit false

/-! # Kinds as structured text -/

namespace NodeForest

/-- A row of strings. -/
def Layout.strings (ss : List String) : Layout :=
  .sequence (ss.map .string)

/-- A kind with its own slots and the name of the kind it extends. -/
def Kind.layout (k : Kind) : Layout :=
  .record "NodeKind" [
    ("name", .string k.name),
    ("slots", .strings k.ownSlots),
    ("base", .option (k.base?.map fun b => .string b.name))]

end NodeForest
