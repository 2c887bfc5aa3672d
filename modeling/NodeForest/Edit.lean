import NodeForest.Forest.Reclaim
import NodeForest.Forest.Replace

set_option autoImplicit false

/-! # Edits

Everything a caller can do to a forest. `Forest.perform` carries an edit out while the caller holds
on to the nodes it names, so that nothing is freed on the way; `Forest.run` then lets go of them and
reclaims what nobody refers to any more. -/

namespace NodeForest

/-- A change that a caller asks for. -/
inductive Edit where
  /-- Creates a node; the caller refers to it. -/
  | create (spec : NodeSpec)
  /-- Creates a list and appends `nodes` to it. -/
  | gather (spec : NodeSpec) (nodes : List NodeId)
  /-- Refers to a node once more. -/
  | retain (n : NodeId)
  /-- Gives up one reference to a node. -/
  | letGo (n : NodeId)
  | fillSlot (owner : NodeId) (index : Nat) (value : Option NodeId)
  | setChild (owner : NodeId) (name : String) (value : Option NodeId)
  | push (list : NodeId) (child : Option NodeId)
  | removeItem (list child : NodeId)
  | replaceChild (owner old new : NodeId)
  | replace (n new : NodeId)

/-- What an edit that succeeds tells the caller. -/
inductive Answer where
  | created (n : NodeId)
  | done
  /-- The previous occupant of a slot. -/
  | previous (n : Option NodeId)
  /-- The length of a list. -/
  | length (n : Nat)
  | removed (n : NodeId)
  | replaced (r : Replacement)
  deriving DecidableEq

/-- Why an edit was not carried out. -/
inductive Refusal where
  | tree (e : TreeError)
  /-- The node has only `count` slots. -/
  | slotOutOfRange (count index : Nat)
  | notAList
  /-- A node that the edit names is not alive. -/
  | notAlive
  deriving DecidableEq

/-- The text that a slot number beyond the last slot leads to. -/
def outOfRangeMessage (count index : Nat) : String :=
  "index out of bounds: the len is " ++ toString count ++ " but the index is " ++ toString index

namespace Edit

/-- The nodes that an edit names. -/
def operands : Edit → List NodeId
  | create _ => []
  | gather _ nodes => nodes
  | retain n | letGo n => [n]
  | fillSlot owner _ value | setChild owner _ value => owner :: value.toList
  | push list child => list :: child.toList
  | removeItem list child => [list, child]
  | replaceChild owner old new => [owner, old, new]
  | replace n new => [n, new]

/-- The list that an edit of items is about. -/
def list? : Edit → Option NodeId
  | push list _ | removeItem list _ => some list
  | _ => none

end Edit

/-- The outcome of an edit, from that of the operation which carries it out. -/
def Outcome.ofTree {α : Type} (outcome : Outcome TreeError α) (answer : α → Answer) :
    Outcome Refusal Answer where
  result :=
    match outcome.result with
    | .ok a => .ok (answer a)
    | .error e => .error (.tree e)
  journal := outcome.journal
  forest := outcome.forest

namespace Forest

/-- A forest in which the number of the callers of `n` has changed. -/
def countCallers (f : Forest) (n : NodeId) (change : Nat → Nat) : Forest :=
  f.modify n fun node => { node with callers := change node.callers }

/-- Carries out an edit all of whose operands are alive. -/
def carryOut (f : Forest) : Edit → Outcome Refusal Answer
  | .create spec =>
    let (n, g) := f.insert (Node.fresh spec)
    ⟨.ok (.created n), [], g⟩
  | .gather spec nodes =>
    let (n, g) := f.insert (Node.fresh { spec with isList := true })
    ⟨.ok (.created n), [], nodes.foldl (fun g child => g.push n (some child)) g⟩
  | .retain n => ⟨.ok .done, [], f.countCallers n (· + 1)⟩
  | .letGo n => ⟨.ok .done, [], f.countCallers n (· - 1)⟩
  | .fillSlot owner i value =>
    if i < (f.slots owner).length then
      let (previous, g) := f.fillSlot owner i value
      ⟨.ok (.previous previous), [], g⟩
    else ⟨.error (.slotOutOfRange (f.slots owner).length i), [], f⟩
  | .setChild owner name value => (f.setChild owner name value).ofTree .previous
  | .push list child =>
    let g := f.push list child
    ⟨.ok (.length (g.items list).length), [], g⟩
  | .removeItem list child => (f.removeItem list child).ofTree .removed
  | .replaceChild owner old new => (f.replaceChild owner old new).ofTree .replaced
  | .replace n new => (f.replace n new).ofTree .replaced

/-- Carries out an edit while the caller holds on to the nodes it names. Refused are nodes that are
    not alive and, for an edit of items, a node that is no list. -/
def perform (f : Forest) (e : Edit) : Outcome Refusal Answer :=
  if e.operands.all f.isLive then
    if e.list?.all f.isList then f.carryOut e else ⟨.error .notAList, [], f⟩
  else ⟨.error .notAlive, [], f⟩

/-- Carries out an edit and then frees what nobody refers to any more. -/
def run (f : Forest) (e : Edit) : Outcome Refusal Answer :=
  let outcome := f.perform e
  { outcome with forest := outcome.forest.reclaim }

end Forest

end NodeForest
