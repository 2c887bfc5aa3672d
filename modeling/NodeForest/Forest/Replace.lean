import NodeForest.Forest.SlotEdits
import NodeForest.Forest.ListEdits

set_option autoImplicit false

/-! # Replacing a child

An owner replaces a child where it holds its children: a list among its items, any other node in
its slots. A node can also be replaced without knowing its owner, which its parent link finds. -/

namespace NodeForest.Forest

/-- Has `owner` put `new` in the place of `old`. -/
def replaceChild (f : Forest) (owner old new : NodeId) : Outcome TreeError Replacement :=
  if f.isList owner then f.replaceInList owner old new else f.replaceInSlot owner old new

/-- Has the parent of `n` put `new` in its place. -/
def replace (f : Forest) (n new : NodeId) : Outcome TreeError Replacement :=
  let span := .span (.replaceByParent (f.kindName n))
  match f.parent? n, f.self? n with
  | some parent, some _ =>
    let outcome := f.replaceChild parent n new
    { outcome with journal := span :: outcome.journal }
  | _, _ => ⟨.error (.noParent (f.kindName n)), [span], f⟩

end NodeForest.Forest
