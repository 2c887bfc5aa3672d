set_option autoImplicit false

/-! # The journal

Edits leave a journal. A span says that an edit was entered, before anything is checked; an event
says that it changed something. Nodes are named by their kinds. -/

namespace NodeForest

/-- An edit that was entered. -/
inductive Span where
  /-- A node was asked to have its parent replace it. -/
  | replaceByParent (kind : String)
  /-- A node was asked to replace the occupant of a slot. -/
  | replaceInSlot (owner old : String)
  /-- A list was asked to replace an item. -/
  | replaceInList (owner new : String)
  /-- A list was asked to remove an item. -/
  | removeFromList (owner : String)
  deriving DecidableEq

/-- A change that was made. -/
inductive Event where
  | filledSlot (slot new : String)
  | removedItem (index : Nat)
  | replacedItem (index : Nat)
  /-- An item gave way to the `inserted` items of another list. -/
  | flattenedList (index inserted : Nat)
  deriving DecidableEq

inductive JournalEntry where
  | span (s : Span)
  | event (e : Event)
  deriving DecidableEq

/-- How much an entry matters. -/
inductive Severity where
  | trace
  | debug
  deriving DecidableEq

/-- The part of the library that an entry comes from. -/
inductive Area where
  | nodes
  | lists
  deriving DecidableEq

namespace Span

def area : Span → Area
  | replaceByParent _ | replaceInSlot _ _ => .nodes
  | replaceInList _ _ | removeFromList _ => .lists

def title : Span → String
  | replaceByParent _ => "replace_with"
  | replaceInSlot _ _ => "replace_slot"
  | replaceInList _ _ => "replace_child"
  | removeFromList _ => "remove_child"

/-- What the entry says, by name. -/
def fields : Span → List (String × String)
  | replaceByParent kind => [("kind", kind)]
  | replaceInSlot owner old => [("owner", owner), ("old", old)]
  | replaceInList owner new => [("owner", owner), ("new", new)]
  | removeFromList owner => [("owner", owner)]

end Span

namespace Event

def area : Event → Area
  | filledSlot _ _ => .nodes
  | _ => .lists

def severity : Event → Severity
  | flattenedList _ _ => .debug
  | _ => .trace

def title : Event → String
  | filledSlot _ _ => "replacing child"
  | removedItem _ => "removed child"
  | replacedItem _ => "replaced child"
  | flattenedList _ _ => "flattened list into position"

/-- What the entry says, by name. -/
def fields : Event → List (String × String)
  | filledSlot slot new => [("slot", slot), ("new", new)]
  | removedItem index => [("index", toString index)]
  | replacedItem index => [("index", toString index)]
  | flattenedList index inserted =>
    [("index", toString index), ("inserted", toString inserted)]

end Event

namespace JournalEntry

def isEvent : JournalEntry → Bool
  | event _ => true
  | span _ => false

def area : JournalEntry → Area
  | span s => s.area
  | event e => e.area

def severity : JournalEntry → Severity
  | span _ => .trace
  | event e => e.severity

def title : JournalEntry → String
  | span s => s.title
  | event e => e.title

def fields : JournalEntry → List (String × String)
  | span s => s.fields
  | event e => e.fields

end JournalEntry

end NodeForest
