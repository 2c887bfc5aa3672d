import NodeForest.Slot
import NodeForest.Text.Layout

set_option autoImplicit false

/-! # Snapshots

A snapshot records the shape of a subtree and nothing else: the names of kinds and slots, which
slots and positions are empty, and what stands in the others. Two snapshots are compared as data,
without regard to which nodes they were taken of. -/

namespace NodeForest

/-- The shape of a subtree: of a node with slots, or of a list with items. -/
inductive Snapshot where
  | node (kind : String) (slots : List (Slot Snapshot))
  | list (kind : String) (items : List (Option Snapshot))

namespace Snapshot

/-- The name of the kind at the top. -/
def kind : Snapshot → String
  | node kind _ => kind
  | list kind _ => kind

/-! ## Equality -/

mutual

/-- Whether two snapshots are the same. -/
def decEq : (s t : Snapshot) → Decidable (s = t)
  | node k ss, node l ts =>
    match decEqSlots ss ts with
    | isTrue h => if hk : k = l then isTrue (by rw [hk, h]) else isFalse (by simp [hk])
    | isFalse h => isFalse (by simp [h])
  | list k is, list l js =>
    match decEqItems is js with
    | isTrue h => if hk : k = l then isTrue (by rw [hk, h]) else isFalse (by simp [hk])
    | isFalse h => isFalse (by simp [h])
  | node _ _, list _ _ => isFalse (by simp)
  | list _ _, node _ _ => isFalse (by simp)

/-- Whether two rows of slots are the same. -/
def decEqSlots : (ss ts : List (Slot Snapshot)) → Decidable (ss = ts)
  | [], [] => isTrue rfl
  | [], _ :: _ => isFalse (by simp)
  | _ :: _, [] => isFalse (by simp)
  | ⟨m, o⟩ :: ss, ⟨n, p⟩ :: ts =>
    match decEqChild o p, decEqSlots ss ts with
    | isTrue ho, isTrue h =>
      if hn : m = n then isTrue (by rw [hn, ho, h]) else isFalse (by simp [hn])
    | isFalse ho, _ => isFalse (by simp [ho])
    | isTrue _, isFalse h => isFalse (by simp [h])

/-- Whether two rows of items are the same. -/
def decEqItems : (is js : List (Option Snapshot)) → Decidable (is = js)
  | [], [] => isTrue rfl
  | [], _ :: _ => isFalse (by simp)
  | _ :: _, [] => isFalse (by simp)
  | o :: is, p :: js =>
    match decEqChild o p, decEqItems is js with
    | isTrue ho, isTrue h => isTrue (by rw [ho, h])
    | isFalse ho, _ => isFalse (by simp [ho])
    | isTrue _, isFalse h => isFalse (by simp [h])

/-- Whether the same child stands in two places, or none in either. -/
def decEqChild : (o p : Option Snapshot) → Decidable (o = p)
  | none, none => isTrue rfl
  | none, some _ => isFalse (by simp)
  | some _, none => isFalse (by simp)
  | some s, some t =>
    match decEq s t with
    | isTrue h => isTrue (by rw [h])
    | isFalse h => isFalse (by simp [h])

end

instance : DecidableEq Snapshot :=
  decEq

/-! ## As structured text -/

mutual

/-- The snapshot as structured text. -/
def layout : Snapshot → Layout
  | node kind slots =>
    .record "Node" [("kind", .string kind), ("slots", .sequence (layoutOfSlots slots))]
  | list kind items =>
    .record "List" [("kind", .string kind), ("items", .sequence (layoutOfItems items))]

def layoutOfSlots : List (Slot Snapshot) → List Layout
  | [] => []
  | ⟨name, child⟩ :: rest =>
    .record "SlotSnapshot" [("name", .string name), ("child", layoutOfChild child)]
      :: layoutOfSlots rest

def layoutOfItems : List (Option Snapshot) → List Layout
  | [] => []
  | child :: rest => layoutOfChild child :: layoutOfItems rest

def layoutOfChild : Option Snapshot → Layout
  | none => Layout.option none
  | some s => Layout.option (some s.layout)

end

end Snapshot

end NodeForest
