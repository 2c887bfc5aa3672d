import NodeForest.Forest.Replace
import NodeForest.Proofs.HandOver

set_option autoImplicit false

/-! # Edits as storage and hand-over

Every edit of children first stores: a slot gets another occupant, a list other items. Storing does
not touch a link. What remains is one hand-over, so an edit is `(stored forest).handOver owner
released adopted`, and this module says which forest and which nodes these are for each edit. -/

namespace NodeForest.Forest

/-! ## Storing -/

/-- Puts `value` into the slot at place `i` and does no more. -/
def storeSlot (f : Forest) (owner : NodeId) (i : Nat) (value : Option NodeId) : Forest :=
  f.modify owner (·.setSlot i value)

theorem slots_storeSlot_self (f : Forest) (owner : NodeId) (i : Nat) (value : Option NodeId) :
    (f.storeSlot owner i value).slots owner
      = (f.slots owner).modify i fun s => { s with occupant := value } := by
  rw [slots, slots, storeSlot, node?_modify, if_pos rfl]
  cases f.node? owner with
  | none => exact (List.modify_nil ..).symm
  | some node => rfl

section Untouched

variable (f : Forest) (owner : NodeId) (i : Nat) (value : Option NodeId)
  (items : List (Option NodeId)) (n : NodeId)

theorem size_storeSlot : (f.storeSlot owner i value).nodes.size = f.nodes.size :=
  size_modify ..

theorem size_setItems : (f.setItems owner items).nodes.size = f.nodes.size :=
  size_modify ..

theorem self?_storeSlot : (f.storeSlot owner i value).self? n = f.self? n :=
  self?_modify f owner (·.setSlot i value) (fun _ => rfl) n

theorem parent?_storeSlot : (f.storeSlot owner i value).parent? n = f.parent? n :=
  parent?_modify f owner (·.setSlot i value) (fun _ => rfl) n

theorem items_storeSlot : (f.storeSlot owner i value).items n = f.items n :=
  items_modify f owner (·.setSlot i value) (fun _ => rfl) n

theorem isList_storeSlot : (f.storeSlot owner i value).isList n = f.isList n :=
  isList_modify f owner (·.setSlot i value) (fun _ => rfl) n

theorem self?_setItems : (f.setItems owner items).self? n = f.self? n :=
  self?_modify f owner (·.setItems items) (fun _ => rfl) n

theorem parent?_setItems : (f.setItems owner items).parent? n = f.parent? n :=
  parent?_modify f owner (·.setItems items) (fun _ => rfl) n

theorem slots_setItems : (f.setItems owner items).slots n = f.slots n :=
  slots_modify f owner (·.setItems items) (fun _ => rfl) n

end Untouched

theorem items_setItems_self {f : Forest} {list : NodeId} (h : f.isLive list)
    (items : List (Option NodeId)) : (f.setItems list items).items list = items := by
  obtain ⟨node, hnode⟩ := isLive_iff.1 h
  rw [Forest.items, setItems, node?_modify, if_pos rfl, hnode]
  rfl

theorem sameContents_setItems_of_ne (f : Forest) (items : List (Option NodeId))
    {list n : NodeId} (h : n ≠ list) : SameContents f (f.setItems list items) n :=
  sameContents_modify_of_ne f (·.setItems items) h

theorem isList_setItems {f : Forest} {list : NodeId} (h : f.isList list)
    (items : List (Option NodeId)) (n : NodeId) :
    (f.setItems list items).isList n = f.isList n := by
  by_cases hn : n = list
  · subst hn
    obtain ⟨node, hnode⟩ := isLive_iff.1 (isLive_of_isList h)
    rw [h, isList, setItems, node?_modify, if_pos rfl, hnode]
    rfl
  · exact (sameContents_setItems_of_ne f items hn).isList

theorem handOver_setItems (f : Forest) (owner : NodeId) (released adopted : List NodeId)
    (list : NodeId) (items : List (Option NodeId)) :
    (f.handOver owner released adopted).setItems list items
      = (f.setItems list items).handOver owner released adopted := by
  refine eq_of_node? (by simp only [size_setItems, size_handOver]) fun n => ?_
  simp only [node?_handOver, self?_setItems]
  simp only [setItems, node?_modify, node?_handOver]
  by_cases hn : n = list
  · rw [if_pos hn, if_pos hn, Option.map_map, Option.map_map]
    refine congrArg (Option.map · (f.node? n)) (funext fun node => ?_)
    simp only [Function.comp_apply, Node.setItems, Node.cutLink]
    split
    · rfl
    · split
      · split <;> rfl
      · rfl
  · rw [if_neg hn, if_neg hn]

/-! ## The edits -/

theorem fillSlot_eq (f : Forest) (owner : NodeId) (i : Nat) (value : Option NodeId) :
    (f.fillSlot owner i value).2
      = (f.storeSlot owner i value).handOver owner
          (leaving (f.slotOccupant owner i)
            (((f.storeSlot owner i value).slots owner).map Slot.occupant))
          value.toList := by
  rw [fillSlot, ← storeSlot]
  simp only
  cases f.slotOccupant owner i with
  | none => exact adoptOption_eq ..
  | some previous =>
    simp only [adoptOption_eq, releaseFromSlots_eq, handOver_handOver, List.nil_append]

theorem push_eq (f : Forest) (list : NodeId) (child : Option NodeId) :
    f.push list child
      = (f.setItems list (f.items list ++ [child])).handOver list [] child.toList := by
  unfold push
  rw [adoptOption_eq, handOver_setItems]

theorem replaceAt_eq (f : Forest) (list : NodeId) (i : Nat) (old new : NodeId) :
    f.replaceAt list i old new
      = (f.setItems list ((f.items list).set i (some new))).handOver list
          (leaving (some old)
            ((f.setItems list ((f.items list).set i (some new))).items list))
          [new] := by
  unfold replaceAt
  rw [adopt_eq, releaseFromItems_eq, handOver_handOver]
  rfl

/-- The forest in which the items `moved` have left `new` and stand at position `i` of `list`. -/
def storeSplice (f : Forest) (list : NodeId) (i : Nat) (new : NodeId)
    (moved : List (Option NodeId)) : Forest :=
  (f.setItems new []).setItems list
    (((f.setItems new []).items list).take i ++ moved
      ++ ((f.setItems new []).items list).drop (i + 1))

theorem spliceAt_eq (f : Forest) (list : NodeId) (i : Nat) (old new : NodeId)
    (moved : List (Option NodeId)) :
    f.spliceAt list i old new moved
      = (f.storeSplice list i new moved).handOver list
          (leaving (some old) ((f.storeSplice list i new moved).items list))
          (moved.filterMap id) := by
  unfold spliceAt
  rw [adoptAll_eq, releaseFromItems_eq, handOver_handOver]
  rfl

end NodeForest.Forest
