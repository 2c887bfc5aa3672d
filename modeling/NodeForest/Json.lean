set_option autoImplicit false

/-! # JSON values

The members of an object keep the order in which they are written, and a key may occur twice:
readers that care about either can see it. `Json.canonical` is the form without such accidents:
members sorted by key, of two members with one key the later one. -/

namespace NodeForest

/-- A JSON value. Numbers without fraction and exponent are integers as far as 64 bits carry them;
    all other numbers are double-precision fractions. -/
inductive Json where
  | null
  | bool (value : Bool)
  | integer (value : Int)
  | fraction (value : Float)
  | string (value : String)
  | array (elements : List Json)
  | object (members : List (String × Json))

namespace Json

/-- The value of the last member called `key`, if this is an object that has one. -/
def get? (v : Json) (key : String) : Option Json :=
  match v with
  | object members => (members.reverse.find? (·.1 == key)).map (·.2)
  | _ => none

/-! ## Canonical form -/

/-- Puts a member in its place among members sorted by key, instead of one with the same key. -/
def insertMember (key : String) (value : Json) : List (String × Json) → List (String × Json)
  | [] => [(key, value)]
  | (k, v) :: rest =>
    if key = k then (key, value) :: rest
    else if key < k then (key, value) :: (k, v) :: rest
    else (k, v) :: insertMember key value rest

mutual

/-- Every object of the value with its members sorted by key and no key twice. -/
def canonical : Json → Json
  | array elements => array (canonicalElements elements)
  | object members => object (canonicalMembers members [])
  | v => v

def canonicalElements : List Json → List Json
  | [] => []
  | v :: vs => v.canonical :: canonicalElements vs

/-- Adds members, first to last, to members that are in canonical form. -/
def canonicalMembers : List (String × Json) → List (String × Json) → List (String × Json)
  | [], done => done
  | (key, value) :: rest, done =>
    canonicalMembers rest (insertMember key value.canonical done)

end

end Json

end NodeForest
