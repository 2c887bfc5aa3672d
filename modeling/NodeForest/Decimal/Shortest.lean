set_option autoImplicit false

/-! # The fewest digits that read back

A double-precision number is written with the fewest decimal digits that are nearer to it than to
any other such number. `shortest` selects the digits by exact arithmetic on natural numbers:
among the grids of multiples of a power of ten it takes the coarsest that has a point in the
interval of reals that round to the number, and there the nearest point. `Decimal.text` lays the
digits out. -/

namespace NodeForest.Decimal

/-- The digits of a decimal number and the power of ten they count: `digits · 10 ^ exponent`. -/
structure Scaled where
  digits : Nat
  exponent : Int
  deriving DecidableEq

/-- A positive number `significand · 2 ^ exponent` with its neighbours: `isEdge` says that the next
    lower number is only half as far away as the next higher one. -/
structure Binary where
  significand : Nat
  exponent : Int
  isEdge : Bool

/-- The magnitude of a finite double, read off its bits. -/
def Binary.ofBits (bits : UInt64) : Binary :=
  let fractionPart : Nat := bits.toNat % Nat.pow 2 52
  let exponentPart : Nat := bits.toNat / Nat.pow 2 52 % Nat.pow 2 11
  if exponentPart = 0 then ⟨fractionPart, -1074, false⟩
  else
    ⟨Nat.pow 2 52 + fractionPart, (exponentPart : Int) - 1075,
      fractionPart = 0 && 1 < exponentPart⟩

/-- The multiple of `10 ^ k` nearest to `b` among those that round to `b`, if there is one; of two
    equally near ones the even one.

    Everything is measured in quarters of the distance to the next number, and multiplied by
    `unit` and `step` so that it becomes a natural number. -/
def Binary.nearestOnGrid? (b : Binary) (k : Int) : Option Scaled :=
  let e := b.exponent - 2
  let unit := Nat.pow 2 e.toNat * Nat.pow 10 (-k).toNat
  let step := Nat.pow 10 k.toNat * Nat.pow 2 (-e).toNat
  let value := 4 * b.significand * unit
  let low := value - (if b.isEdge then 1 else 2) * unit
  let high := value + 2 * unit
  let below := value / step
  let isIn (d : Nat) : Bool :=
    if b.significand % 2 = 0 then low ≤ d * step && d * step ≤ high
    else low < d * step && d * step < high
  let down := value - below * step
  let up := (below + 1) * step - value
  match isIn below, isIn (below + 1) with
  | false, false => none
  | true, false => some ⟨below, k⟩
  | false, true => some ⟨below + 1, k⟩
  | true, true =>
    some ⟨if down < up || (down = up && below % 2 = 0) then below else below + 1, k⟩

/-- The shortest decimal for a positive number, found on the coarsest grid that has one. The grids
    run from above the greatest double to below the seventeenth digit of the least, so one of them
    always has. -/
def Binary.shortest (b : Binary) : Scaled :=
  ((List.range 700).findSome? fun i : Nat => b.nearestOnGrid? (310 - (i : Int))).getD ⟨0, 0⟩

/-- The digits with a decimal point, positionally for values from `10⁻⁵` up to below `10¹⁶` and
    with an exponent otherwise. -/
def Scaled.text (d : Scaled) : String :=
  let digits := toString d.digits
  let point : Int := digits.length + d.exponent
  if 0 ≤ d.exponent && point ≤ 16 then
    digits.pushn '0' d.exponent.toNat ++ ".0"
  else if 0 < point && point ≤ 16 then
    String.ofList (digits.toList.take point.toNat) ++ "."
      ++ String.ofList (digits.toList.drop point.toNat)
  else if -5 < point && point ≤ 0 then
    "0.".pushn '0' (-point).toNat ++ digits
  else
    match digits.toList with
    | lead :: rest@(_ :: _) =>
      lead.toString ++ "." ++ String.ofList rest ++ "e" ++ toString (point - 1)
    | _ => digits ++ "e" ++ toString (point - 1)

/-- A finite double in decimal. -/
def text (x : Float) : String :=
  let sign := if x.toBits.toNat < Nat.pow 2 63 then "" else "-"
  let b := Binary.ofBits x.toBits
  if b.significand = 0 then sign ++ "0.0" else sign ++ b.shortest.text

end NodeForest.Decimal
