import NodeForest.Json

set_option autoImplicit false

/-! # Number literals

Which values the number literals of JSON text have. An integer literal that 64 bits can carry is an
integer. Any other literal is a double: its leading digits, as many as fit into 64 bits, scaled by
one power of ten. A literal beyond the greatest double has no value. -/

namespace NodeForest.Json

/-- The decimal digits at the start, and what follows them. -/
def spanDigits (cs : List Char) : List Char × List Char :=
  (cs.takeWhile Char.isDigit, cs.dropWhile Char.isDigit)

/-- The number that digits spell after those that spell `n`. -/
def spellFrom (n : Nat) (digits : List Char) : Nat :=
  digits.foldl (fun n c => 10 * n + (c.toNat - '0'.toNat)) n

/-- Appends digits to `n` as long as the result fits into 64 bits; gives the digits left over. -/
def absorb : (n : Nat) → (digits : List Char) → Nat × List Char
  | n, [] => (n, [])
  | n, c :: cs =>
    let n' := spellFrom n [c]
    if n' < Nat.pow 2 64 then absorb n' cs else (n, c :: cs)

/-- A power of ten between `10⁰` and `10³⁰⁸`, correctly rounded. -/
def tenTo (e : Nat) : Float :=
  Float.ofScientific 1 false e

/-- `significand · 10 ^ exponent` in double precision, unless it is beyond the greatest double. -/
def scaled? (significand : Nat) (exponent : Int) : Option Float :=
  let x := (UInt64.ofNat significand).toFloat
  if exponent < 0 then
    let e := (-exponent).toNat
    some (if e ≤ 308 then x / tenTo e else x / tenTo 308 / tenTo (min (e - 308) 308))
  else if significand = 0 then some x
  else if exponent ≤ 308 then
    let y := x * tenTo exponent.toNat
    if y.isInf then none else some y
  else none

/-- The double with the given integer digits, fraction digits and exponent. -/
def fraction? (isNegative : Bool) (whole part : List Char) (exponent : Int) : Option Json :=
  let (n, wholeLeft) := absorb 0 whole
  let (n, partLeft) := absorb n part
  let shift : Int := wholeLeft.length - (part.length - partLeft.length : Nat)
  (scaled? n (shift + exponent)).map fun x => fraction (if isNegative then -x else x)

/-- The value of an integer literal. Minus zero is a double, since no integer has that sign. -/
def integer? (isNegative : Bool) (whole : List Char) : Option Json :=
  let n := spellFrom 0 whole
  if isNegative then
    if 0 < n && n ≤ Nat.pow 2 63 then some (integer (-n)) else fraction? true whole [] 0
  else
    if n < Nat.pow 2 64 then some (integer n) else fraction? false whole [] 0

/-- The exponent that a literal ends in: absent if nothing is left, refused if it is malformed. -/
def exponent? : List Char → Option (Option Int)
  | [] => some none
  | mark :: cs =>
    if mark = 'e' || mark = 'E' then
      let (isNegative, digits) :=
        match cs with
        | '-' :: r => (true, r)
        | '+' :: r => (false, r)
        | r => (false, r)
      if digits.isEmpty || !digits.all Char.isDigit then none
      else
        let n := spellFrom 0 digits
        some (some (if isNegative then -(n : Int) else n))
    else none

/-- The value of a number literal, refused if the characters are not exactly one literal. -/
def number? (cs : List Char) : Option Json :=
  let (isNegative, cs) :=
    match cs with
    | '-' :: r => (true, r)
    | r => (false, r)
  let (whole, cs) := spanDigits cs
  if whole.isEmpty || (whole.head? = some '0' && 1 < whole.length) then none
  else
    match cs with
    | '.' :: r =>
      let (part, r) := spanDigits r
      if part.isEmpty then none
      else (exponent? r).bind fun e => fraction? isNegative whole part (e.getD 0)
    | r =>
      (exponent? r).bind fun e =>
        match e with
        | none => integer? isNegative whole
        | some e => fraction? isNegative whole [] e

end NodeForest.Json
