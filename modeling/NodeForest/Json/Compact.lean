import NodeForest.Json
import NodeForest.Decimal.Shortest

set_option autoImplicit false

/-! # Compact JSON text

The text of a value without any blanks, its members in the order in which the value holds them.
In strings the quote, the backslash and the control characters below the blank are escaped; every
other character stands for itself. -/

namespace NodeForest.Json

/-- The two lower-case hexadecimal digits of a number below 256. -/
def hexPair (n : Nat) : List Char :=
  [Nat.digitChar (n / 16), Nat.digitChar (n % 16)]

/-- What stands for one character of a string between the quotes. -/
def escape (c : Char) : List Char :=
  if c = '"' then ['\\', '"']
  else if c = '\\' then ['\\', '\\']
  else if c.toNat = 0x08 then ['\\', 'b']
  else if c.toNat = 0x0c then ['\\', 'f']
  else if c = '\n' then ['\\', 'n']
  else if c = '\r' then ['\\', 'r']
  else if c = '\t' then ['\\', 't']
  else if c.toNat < 0x20 then ['\\', 'u', '0', '0'] ++ hexPair c.toNat
  else [c]

/-- A string between quotes. -/
def quotedChars (s : String) : List Char :=
  '"' :: s.toList.flatMap escape ++ ['"']

mutual

/-- The characters of the compact text. -/
def chars : Json → List Char
  | null => "null".toList
  | bool true => "true".toList
  | bool false => "false".toList
  | integer n => (toString n).toList
  | fraction x => (Decimal.text x).toList
  | string s => quotedChars s
  | array [] => ['[', ']']
  | array (v :: vs) => '[' :: v.chars ++ charsOfRest vs
  | object [] => ['\x7b', '\x7d']
  | object ((key, v) :: ms) => '\x7b' :: quotedChars key ++ ':' :: v.chars ++ charsOfMembers ms

/-- The elements after the first, each after a comma, and the closing bracket. -/
def charsOfRest : List Json → List Char
  | [] => [']']
  | v :: vs => ',' :: v.chars ++ charsOfRest vs

/-- The members after the first, each after a comma, and the closing brace. -/
def charsOfMembers : List (String × Json) → List Char
  | [] => ['\x7d']
  | (key, v) :: ms => ',' :: quotedChars key ++ ':' :: v.chars ++ charsOfMembers ms

end

/-- The compact text. -/
def compact (v : Json) : String :=
  String.ofList v.chars

end NodeForest.Json
