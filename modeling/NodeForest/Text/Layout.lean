import NodeForest.Text.Quoted

set_option autoImplicit false

/-! # Structured text

Nodes, snapshots and errors are shown as structured text: words, sequences in brackets, tuples and
records with a name. A `Layout` is such a text before it is laid out. `Layout.compact` writes it on
one line; `Layout.pretty` gives every element a line of its own, indented by four spaces a level
and followed by a comma. Both write an empty sequence as a pair of brackets. -/

namespace NodeForest

/-- A structured text. -/
inductive Layout where
  /-- Text that is written as it is. -/
  | word (text : String)
  | sequence (elements : List Layout)
  | tuple (name : String) (elements : List Layout)
  | record (name : String) (fields : List (String × Layout))

namespace Layout

/-- A string, in quotes. -/
def string (s : String) : Layout :=
  word (Text.quoted s)

/-- A truth value. -/
def bool (b : Bool) : Layout :=
  word (if b then "true" else "false")

/-- A number, in decimal digits. -/
def nat (n : Nat) : Layout :=
  word (toString n)

/-- Something that may be absent. -/
def option : Option Layout → Layout
  | some l => tuple "Some" [l]
  | none => word "None"

/-! ## On one line -/

mutual

/-- The text on one line. -/
def compact : Layout → String
  | word text => text
  | sequence elements => "[" ++ ", ".intercalate (compactElements elements) ++ "]"
  | tuple name [] => name
  | tuple name (e :: es) => name ++ "(" ++ ", ".intercalate (compactElements (e :: es)) ++ ")"
  | record name [] => name
  | record name (f :: fs) =>
    name ++ " \x7b " ++ ", ".intercalate (compactFields (f :: fs)) ++ " \x7d"

/-- Each element on one line. -/
def compactElements : List Layout → List String
  | [] => []
  | e :: es => e.compact :: compactElements es

/-- Each field on one line, after its name. -/
def compactFields : List (String × Layout) → List String
  | [] => []
  | (name, value) :: fs => (name ++ ": " ++ value.compact) :: compactFields fs

end

/-! ## On several lines -/

/-- The blanks at the start of a line `depth` levels in. -/
def indent (depth : Nat) : String :=
  "".pushn ' ' (4 * depth)

mutual

/-- The text over several lines, its first line standing `depth` levels in. -/
def prettyAt (depth : Nat) : Layout → String
  | word text => text
  | sequence [] => "[]"
  | sequence (e :: es) => "[\n" ++ prettyElements (depth + 1) (e :: es) ++ indent depth ++ "]"
  | tuple name [] => name
  | tuple name (e :: es) =>
    name ++ "(\n" ++ prettyElements (depth + 1) (e :: es) ++ indent depth ++ ")"
  | record name [] => name
  | record name (f :: fs) =>
    name ++ " \x7b\n" ++ prettyFields (depth + 1) (f :: fs) ++ indent depth ++ "\x7d"

/-- A line or more for each element, with its comma. -/
def prettyElements (depth : Nat) : List Layout → String
  | [] => ""
  | e :: es => indent depth ++ prettyAt depth e ++ ",\n" ++ prettyElements depth es

/-- A line or more for each field, with its name and comma. -/
def prettyFields (depth : Nat) : List (String × Layout) → String
  | [] => ""
  | (name, value) :: fs =>
    indent depth ++ name ++ ": " ++ prettyAt depth value ++ ",\n" ++ prettyFields depth fs

end

/-- The text over several lines. -/
def pretty (l : Layout) : String :=
  prettyAt 0 l

end Layout

end NodeForest
