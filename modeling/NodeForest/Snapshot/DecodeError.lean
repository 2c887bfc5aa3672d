import NodeForest.Json
import NodeForest.Decimal.Shortest
import NodeForest.Text.Quoted

set_option autoImplicit false

/-! # Why a JSON value is no snapshot -/

namespace NodeForest.Snapshot

/-- What a decoder looks for at a place. -/
inductive Expectation where
  | snapshot
  | shape
  | string
  | sequence
  | slot
  deriving DecidableEq

def Expectation.text : Expectation → String
  | snapshot => "internally tagged enum Snapshot"
  | shape => "variant identifier"
  | string => "a string"
  | sequence => "a sequence"
  | slot => "struct SlotSnapshot"

/-- A row of fields that may be given by position instead of by name. -/
inductive Row where
  | node
  | list
  | slot
  deriving DecidableEq

def Row.text : Row → String
  | node => "struct variant Snapshot::Node"
  | list => "struct variant Snapshot::List"
  | slot => "struct SlotSnapshot"

/-- A reason to refuse a JSON value. -/
inductive DecodeError where
  /-- A value of another type stands where `expected` belongs. -/
  | invalidType (found : Json) (expected : Expectation)
  | unknownShape (name : String)
  /-- The shape is given by number, and no shape has the number. -/
  | unknownShapeNumber (number : Int)
  | missingField (name : String)
  | duplicateField (name : String)
  /-- A row given by position ends after `count` of its two fields. -/
  | tooShort (count : Nat) (row : Row)
  /-- A row given by position has `count` elements, more than its two fields. -/
  | tooLong (count : Nat)

/-- How a message names a value: scalars with their value, containers by their form alone. -/
def describe : Json → String
  | .null => "null"
  | .bool true => "boolean `true`"
  | .bool false => "boolean `false`"
  | .integer n => "integer `" ++ toString n ++ "`"
  | .fraction x => "floating point `" ++ Decimal.text x ++ "`"
  | .string s => "string " ++ Text.quoted s
  | .array _ => "sequence"
  | .object _ => "map"

/-- The text of the error. -/
def DecodeError.message : DecodeError → String
  | invalidType found expected =>
    "invalid type: " ++ describe found ++ ", expected " ++ expected.text
  | unknownShape name => "unknown variant `" ++ name ++ "`, expected `node` or `list`"
  | unknownShapeNumber n =>
    "invalid value: integer `" ++ toString n ++ "`, expected variant index 0 <= i < 2"
  | missingField name => "missing field `" ++ name ++ "`"
  | duplicateField name => "duplicate field `" ++ name ++ "`"
  | tooShort count row =>
    "invalid length " ++ toString count ++ ", expected " ++ row.text ++ " with 2 elements"
  | tooLong count => "invalid length " ++ toString count ++ ", expected 2 elements in sequence"

end NodeForest.Snapshot
