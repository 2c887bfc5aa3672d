import NodeForest.Snapshot
import NodeForest.Snapshot.DecodeError

set_option autoImplicit false

/-! # Reading a snapshot from JSON

A snapshot is an object with the members `shape`, `kind` and `slots` or `items`, in any order; the
shape is settled before the other members are looked at, and these are looked at in the order in
which they stand. Members with other names are passed over, and `child` may be left out of a slot
that is empty. A snapshot or slot may also be given as an array of its fields by position.

Inside another snapshot the shape may be given by number, 0 for a node and 1 for a list; at the top
it may not. -/

namespace NodeForest.Snapshot

/-- The two forms of a snapshot. -/
inductive Shape where
  | node
  | list
  deriving DecidableEq

/-- The shape that a value names. -/
def decodeShape (isInner : Bool) : Json → Except DecodeError Shape
  | .string "node" => .ok .node
  | .string "list" => .ok .list
  | .string name => .error (.unknownShape name)
  | .integer n =>
    if isInner && 0 ≤ n then
      if n = 0 then .ok .node
      else if n = 1 then .ok .list
      else .error (.unknownShapeNumber n)
    else .error (.invalidType (.integer n) .shape)
  | v => .error (.invalidType v .shape)

/-- The shape that the members of an object name, given the shape `found` before them. -/
def shapeOfMembers (isInner : Bool) (found : Option Shape) :
    List (String × Json) → Except DecodeError Shape
  | [] =>
    match found with
    | some shape => .ok shape
    | none => .error (.missingField "shape")
  | (key, v) :: rest =>
    if key = "shape" then
      match found with
      | some _ => .error (.duplicateField "shape")
      | none =>
        match decodeShape isInner v with
        | .ok shape => shapeOfMembers isInner (some shape) rest
        | .error e => .error e
    else shapeOfMembers isInner found rest

/-- A string. -/
def decodeString : Json → Except DecodeError String
  | .string s => .ok s
  | v => .error (.invalidType v .string)

/-- The value of a field, if it has been found. -/
def required {α : Type} (name : String) : Option α → Except DecodeError α
  | some x => .ok x
  | none => .error (.missingField name)

/-- Takes the value of a field that may occur only once. -/
def onlyOnce {α : Type} (name : String) (found : Option α) (value : Except DecodeError α) :
    Except DecodeError α :=
  if found.isSome then .error (.duplicateField name) else value

/-- What stands in a slot or at a position: nothing if the value is `null`, and otherwise the
    snapshot that the value is. -/
def unlessNull (v : Json) (decoded : Except DecodeError Snapshot) :
    Except DecodeError (Option Snapshot) :=
  match v with
  | .null => .ok none
  | _ => decoded.map some

mutual

/-- The snapshot that a value is. -/
def decodeAt (isInner : Bool) : Json → Except DecodeError Snapshot
  | .object members =>
    match shapeOfMembers isInner none members with
    | .ok .node => decodeNodeMembers none none members
    | .ok .list => decodeListMembers none none members
    | .error e => .error e
  | .array [] => .error (.missingField "shape")
  | .array (shape :: fields) =>
    match decodeShape isInner shape with
    | .ok .node => decodeNodeRow fields
    | .ok .list => decodeListRow fields
    | .error e => .error e
  | v => .error (.invalidType v .snapshot)

/-- A node, from the members left and the fields found before them. -/
def decodeNodeMembers (kind : Option String) (slots : Option (List (Slot Snapshot))) :
    List (String × Json) → Except DecodeError Snapshot
  | [] => do
    let kind ← required "kind" kind
    let slots ← required "slots" slots
    return node kind slots
  | (key, v) :: rest => do
    if key = "kind" then
      let k ← onlyOnce "kind" kind (decodeString v)
      decodeNodeMembers (some k) slots rest
    else if key = "slots" then
      let ss ← onlyOnce "slots" slots (decodeSlots v)
      decodeNodeMembers kind (some ss) rest
    else decodeNodeMembers kind slots rest

/-- A list, from the members left and the fields found before them. -/
def decodeListMembers (kind : Option String) (items : Option (List (Option Snapshot))) :
    List (String × Json) → Except DecodeError Snapshot
  | [] => do
    let kind ← required "kind" kind
    let items ← required "items" items
    return list kind items
  | (key, v) :: rest => do
    if key = "kind" then
      let k ← onlyOnce "kind" kind (decodeString v)
      decodeListMembers (some k) items rest
    else if key = "items" then
      let is ← onlyOnce "items" items (decodeItems v)
      decodeListMembers kind (some is) rest
    else decodeListMembers kind items rest

/-- A node, from its fields by position. -/
def decodeNodeRow : List Json → Except DecodeError Snapshot
  | [] => .error (.tooShort 0 .node)
  | [kind] => do
    let _ ← decodeString kind
    throw (.tooShort 1 .node)
  | kind :: slots :: more => do
    let kind ← decodeString kind
    let slots ← decodeSlots slots
    if more.isEmpty then return node kind slots else throw (.tooLong (2 + more.length))

/-- A list, from its fields by position. -/
def decodeListRow : List Json → Except DecodeError Snapshot
  | [] => .error (.tooShort 0 .list)
  | [kind] => do
    let _ ← decodeString kind
    throw (.tooShort 1 .list)
  | kind :: items :: more => do
    let kind ← decodeString kind
    let items ← decodeItems items
    if more.isEmpty then return list kind items else throw (.tooLong (2 + more.length))

/-- The slots of a node. -/
def decodeSlots : Json → Except DecodeError (List (Slot Snapshot))
  | .array elements => decodeSlotRows elements
  | v => .error (.invalidType v .sequence)

def decodeSlotRows : List Json → Except DecodeError (List (Slot Snapshot))
  | [] => .ok []
  | v :: rest => do
    let s ← decodeSlot v
    let ss ← decodeSlotRows rest
    return s :: ss

/-- One slot. -/
def decodeSlot : Json → Except DecodeError (Slot Snapshot)
  | .object members => decodeSlotMembers none none members
  | .array elements => decodeSlotRow elements
  | v => .error (.invalidType v .slot)

/-- A slot, from the members left and the fields found before them. -/
def decodeSlotMembers (name : Option String) (child : Option (Option Snapshot)) :
    List (String × Json) → Except DecodeError (Slot Snapshot)
  | [] => do
    let name ← required "name" name
    return ⟨name, child.getD none⟩
  | (key, v) :: rest => do
    if key = "name" then
      let n ← onlyOnce "name" name (decodeString v)
      decodeSlotMembers (some n) child rest
    else if key = "child" then
      let c ← onlyOnce "child" child (unlessNull v (decodeAt true v))
      decodeSlotMembers name (some c) rest
    else decodeSlotMembers name child rest

/-- A slot, from its fields by position. -/
def decodeSlotRow : List Json → Except DecodeError (Slot Snapshot)
  | [] => .error (.tooShort 0 .slot)
  | [name] => do
    let _ ← decodeString name
    throw (.tooShort 1 .slot)
  | name :: child :: more => do
    let name ← decodeString name
    let child ← unlessNull child (decodeAt true child)
    if more.isEmpty then return ⟨name, child⟩ else throw (.tooLong (2 + more.length))

/-- The items of a list. -/
def decodeItems : Json → Except DecodeError (List (Option Snapshot))
  | .array elements => decodeItemRows elements
  | v => .error (.invalidType v .sequence)

def decodeItemRows : List Json → Except DecodeError (List (Option Snapshot))
  | [] => .ok []
  | v :: rest => do
    let i ← unlessNull v (decodeAt true v)
    let is ← decodeItemRows rest
    return i :: is

end

/-- The snapshot that a JSON value is. -/
def decode (v : Json) : Except DecodeError Snapshot :=
  decodeAt false v

end NodeForest.Snapshot
