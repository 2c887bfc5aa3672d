import NodeForest.Forest
import NodeForest.Journal
import NodeForest.TreeError

set_option autoImplicit false

/-! # What an edit comes to

An edit that can fail gives an answer or an error, the journal it leaves, and the forest after it.
An edit that fails leaves the forest as it was. -/

namespace NodeForest

structure Outcome (Error Answer : Type) where
  result : Except Error Answer
  journal : List JournalEntry
  forest : Forest

/-- How a child was replaced. -/
inductive Replacement where
  /-- One node has taken the child's place. -/
  | single (node : NodeId)
  /-- The items of a list, so many of them, have taken the child's place. -/
  | spliced (inserted : Nat)
  deriving DecidableEq

/-- The node that has taken the child's place, if it is one. -/
def Replacement.node? : Replacement → Option NodeId
  | single n => some n
  | spliced _ => none

/-- The error that says `child` is not where it was looked for. -/
def Forest.notAChild (f : Forest) (owner child : NodeId) : TreeError :=
  .notAChild (f.kindName owner) (f.kindName child)

/-- The error that says `n` would become its own child. -/
def Forest.selfReference (f : Forest) (n : NodeId) : TreeError :=
  .selfReference (f.kindName n)

end NodeForest
