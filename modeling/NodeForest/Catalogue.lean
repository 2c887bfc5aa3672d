import NodeForest.Node

set_option autoImplicit false

/-! # A catalogue of node types

The declared node types of a small language, and the types under which nodes of other kinds are
built. A declared type has a kind of its own name; a type of the catalogue that is a list has no
slots. -/

namespace NodeForest.Catalogue

/-- A declared node type: its kind, its text field if it has one, and whether its nodes are
    lists. -/
structure Declaration where
  kind : Kind
  field? : Option String
  isList : Bool

def identifier : Kind :=
  .root ⟨"Identifier", "Identifier", []⟩

def unary : Kind :=
  .root ⟨"Unary", "Unary", ["left"]⟩

def binary : Kind :=
  .extend ⟨"Binary", "Binary", ["right"]⟩ unary

def assign : Kind :=
  .extend ⟨"Assign", "Assign", ["target"]⟩ binary

def ifStatement : Kind :=
  .root ⟨"IfStatement", "IfStatement", ["condition", "then_branch", "else_branch"]⟩

/-- Declares a slot that its base declares too. -/
def shadowing : Kind :=
  .extend ⟨"Shadowing", "Shadowing", ["left"]⟩ unary

def block : Kind :=
  .root ⟨"Block", "Block", []⟩

def argumentList : Kind :=
  .root ⟨"ArgumentList", "ArgumentList", []⟩

/-- Every declared type. -/
def declarations : List Declaration := [
  ⟨identifier, some "name", false⟩,
  ⟨unary, some "operator", false⟩,
  ⟨binary, some "operator", false⟩,
  ⟨assign, none, false⟩,
  ⟨ifStatement, none, false⟩,
  ⟨shadowing, none, false⟩,
  ⟨block, none, true⟩,
  ⟨argumentList, none, true⟩]

/-- The declared type called `name`. -/
def find? (name : String) : Option Declaration :=
  declarations.find? (·.kind.name == name)

/-- The declared type whose kind is `k`. -/
def ofKind? (k : Kind) : Option Declaration :=
  declarations.find? (·.kind == k)

/-- The place of the slot that the accessor `name` of nodes of kind `k` designates. A declared type
    has an accessor for each slot that its kind declares itself, and none for those of its base. -/
def accessor? (k : Kind) (name : String) : Option Nat :=
  (ofKind? k).bind (·.kind.ownSlot? name)

/-- The node type that a declaration introduces. -/
def Declaration.type (d : Declaration) : NodeType :=
  ⟨d.kind.name, d.field?⟩

/-- The type of nodes whose kind is not declared here. -/
def customType (isList : Bool) : NodeType :=
  ⟨if isList then "CustomList" else "Custom", none⟩

/-- What a node of kind `k` is made from. The declaration of a declared kind settles whether it is
    a list and that it knows itself; for any other kind the caller chooses. -/
def spec (k : Kind) (text : String) (isList isAnchored : Bool) : NodeSpec :=
  match ofKind? k with
  | some d => ⟨d.type, k, text, d.isList, true⟩
  | none => ⟨customType isList, k, text, isList, isAnchored⟩

end NodeForest.Catalogue
