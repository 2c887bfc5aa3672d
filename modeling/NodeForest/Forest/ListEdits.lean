import NodeForest.Forest.Adoption
import NodeForest.Forest.Outcome

set_option autoImplicit false

/-! # Editing lists

The items of a list are edited by position, and an item is found by identity: its first position
counts. Replacing an item by another list of exactly the same kind splices: the items of that list
move to the position, in order and placeholders included, and leave it empty. -/

namespace NodeForest.Forest

/-- Gives a list other items. -/
def setItems (f : Forest) (list : NodeId) (items : List (Option NodeId)) : Forest :=
  f.modify list (·.setItems items)

/-- The first position of `child` among the items. -/
def position? (f : Forest) (list child : NodeId) : Option Nat :=
  (f.items list).idxOf? (some child)

/-- Appends an item, or a placeholder. -/
def push (f : Forest) (list : NodeId) (child : Option NodeId) : Forest :=
  (f.adoptOption list child).setItems list (f.items list ++ [child])

/-- Removes the first occurrence of `child`. -/
def removeItem (f : Forest) (list child : NodeId) : Outcome TreeError NodeId :=
  let span := .span (.removeFromList (f.kindName list))
  match f.position? list child with
  | none => ⟨.error (f.notAChild list child), [span], f⟩
  | some i =>
    let removed := f.setItems list ((f.items list).eraseIdx i)
    ⟨.ok child, [span, .event (.removedItem i)], removed.releaseFromItems list child⟩

/-- The items that `new` brings if `list` takes it apart: those of a list of exactly its kind. -/
def spliceItems? (f : Forest) (list new : NodeId) : Option (List (Option NodeId)) :=
  if f.isList new && f.kind? new == f.kind? list then some (f.items new) else none

/-- Moves the items of `new` to position `i` of `list`, where `old` stands. -/
def spliceAt (f : Forest) (list : NodeId) (i : Nat) (old new : NodeId)
    (moved : List (Option NodeId)) : Forest :=
  let drained := f.setItems new []
  let items := drained.items list
  let spliced := drained.setItems list (items.take i ++ moved ++ items.drop (i + 1))
  (spliced.releaseFromItems list old).adoptAll list moved

/-- Puts `new` at position `i` of `list`, where `old` stands. -/
def replaceAt (f : Forest) (list : NodeId) (i : Nat) (old new : NodeId) : Forest :=
  let stored := f.setItems list ((f.items list).set i (some new))
  (stored.releaseFromItems list old).adopt list new

/-- Replaces the first occurrence of `old` by `new`, or by the items of `new`. -/
def replaceInList (f : Forest) (list old new : NodeId) : Outcome TreeError Replacement :=
  let span := .span (.replaceInList (f.kindName list) (f.kindName new))
  match f.position? list old with
  | none => ⟨.error (f.notAChild list old), [span], f⟩
  | some i =>
    if new = list then ⟨.error (f.selfReference list), [span], f⟩
    else
      match f.spliceItems? list new with
      | some moved =>
        ⟨.ok (.spliced moved.length), [span, .event (.flattenedList i moved.length)],
          f.spliceAt list i old new moved⟩
      | none =>
        ⟨.ok (.single new), [span, .event (.replacedItem i)], f.replaceAt list i old new⟩

end NodeForest.Forest
