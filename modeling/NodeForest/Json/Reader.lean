import NodeForest.Json.Token

set_option autoImplicit false

/-! # Reading JSON text

Text is read token by token. What has been read so far is a `Reading`: the containers that are
still open, and what may come next. `Json.read?` accepts exactly one value, with blanks around it,
whose containers are nested at most `maxDepth` deep. Objects keep their members in the order of the
text, repeated keys included. -/

namespace NodeForest.Json

/-- How many containers may stand one inside the other. -/
def maxDepth : Nat :=
  127

/-- A container whose end has not been read, with its content so far, latest first. -/
inductive OpenContainer where
  | array (done : List Json)
  /-- The value of the member called `key` is being read. -/
  | object (done : List (String × Json)) (key : String)

/-- What has been read, by what may come next. The containers around the place are given from the
    inside out. -/
inductive Reading where
  /-- A value. -/
  | value (around : List OpenContainer)
  /-- The first element of an array, or its end. -/
  | element (around : List OpenContainer)
  /-- The key of the first member of an object, or its end. -/
  | firstKey (around : List OpenContainer)
  /-- The key of a further member. -/
  | nextKey (done : List (String × Json)) (around : List OpenContainer)
  /-- The colon after a key. -/
  | colon (done : List (String × Json)) (key : String) (around : List OpenContainer)
  /-- A comma, or the end of the array. -/
  | elementEnd (done : List Json) (around : List OpenContainer)
  /-- A comma, or the end of the object. -/
  | memberEnd (done : List (String × Json)) (around : List OpenContainer)
  /-- Nothing. -/
  | finished (value : Json)

namespace Reading

/-- The reading after a whole value. -/
def complete (v : Json) : List OpenContainer → Reading
  | [] => finished v
  | .array done :: around => elementEnd (v :: done) around
  | .object done key :: around => memberEnd ((key, v) :: done) around

/-- The reading after the first token of a value. -/
def begin (around : List OpenContainer) : Token → Option Reading
  | .scalar v => some (complete v around)
  | .openArray => if around.length < maxDepth then some (element around) else none
  | .openObject => if around.length < maxDepth then some (firstKey around) else none
  | _ => none

/-- The reading after one more token, refused if the token may not come here. -/
def step : Reading → Token → Option Reading
  | value around, t => begin around t
  | element around, .closeArray => some (complete (array []) around)
  | element around, t => begin (.array [] :: around) t
  | firstKey around, .closeObject => some (complete (object []) around)
  | firstKey around, .scalar (string k) => some (colon [] k around)
  | nextKey done around, .scalar (string k) => some (colon done k around)
  | colon done k around, .colon => some (value (.object done k :: around))
  | elementEnd done around, .comma => some (value (.array done :: around))
  | elementEnd done around, .closeArray => some (complete (array done.reverse) around)
  | memberEnd done around, .comma => some (nextKey done around)
  | memberEnd done around, .closeObject => some (complete (object done.reverse) around)
  | _, _ => none

end Reading

/-- The value that the text is, if it is one complete value. -/
def read? (text : String) : Option Json :=
  match Token.read? text.toList with
  | none => none
  | some tokens =>
    match tokens.foldlM Reading.step (.value []) with
    | some (.finished v) => some v
    | _ => none

end NodeForest.Json
