import NodeForest.Forest.Adoption
import NodeForest.Forest.Outcome

set_option autoImplicit false

/-! # Editing slots

A slot is filled in three moves: the new occupant goes in, the previous one is released, the new
one is adopted. Filling a slot does not look at what goes in, so a node can be put into its own
slot; replacing an occupant refuses that. -/

namespace NodeForest.Forest

/-- The occupant of the slot at place `i`, if there is such a slot and something in it. -/
def slotOccupant (f : Forest) (owner : NodeId) (i : Nat) : Option NodeId :=
  (f.slots owner)[i]?.bind Slot.occupant

/-- Puts `value` into the slot at place `i`, or empties it; gives the previous occupant. -/
def fillSlot (f : Forest) (owner : NodeId) (i : Nat) (value : Option NodeId) :
    Option NodeId × Forest :=
  let previous := f.slotOccupant owner i
  let stored := f.modify owner (·.setSlot i value)
  let released :=
    match previous with
    | some p => stored.releaseFromSlots owner p
    | none => stored
  (previous, released.adoptOption owner value)

/-- Fills the first slot called `name`; gives the previous occupant. -/
def setChild (f : Forest) (owner : NodeId) (name : String) (value : Option NodeId) :
    Outcome TreeError (Option NodeId) :=
  match Slot.index? (f.slots owner) name with
  | none => ⟨.error (.unknownSlot (f.kindName owner) name), [], f⟩
  | some i =>
    let (previous, g) := f.fillSlot owner i value
    ⟨.ok previous, [], g⟩

/-- Puts `new` into the first slot that holds `old`. -/
def replaceInSlot (f : Forest) (owner old new : NodeId) : Outcome TreeError Replacement :=
  let span := .span (.replaceInSlot (f.kindName owner) (f.kindName old))
  match (f.slots owner).findIdx? (·.occupant == some old) with
  | none => ⟨.error (f.notAChild owner old), [span], f⟩
  | some i =>
    if new = owner then ⟨.error (f.selfReference owner), [span], f⟩
    else
      let slot := (((f.slots owner)[i]?).map Slot.name).getD ""
      ⟨.ok (.single new), [span, .event (.filledSlot slot (f.kindName new))],
        (f.fillSlot owner i (some new)).2⟩

end NodeForest.Forest
