import Transect.Binary

/-!
# Decimal text of doubles

`fixed` and `scientific` print a set number of places, rounded from the exact value with ties to
even. `shortest` finds the fewest digits that read back as the same double, and `plain` prints those
digits.
-/
namespace Transect

namespace Binary

/-- Whether `digits · 10 ^ -k` reads back as the value: it lies between the midpoints to the two
neighbouring doubles, the midpoints themselves included when the significand is even. Below a power
of two the neighbour is only half as far. Distances are counted in quarters of the last place. -/
def readsBack (b : Binary) (digits : Nat) (k : Int) : Bool :=
  let m := b.significand
  let value := 4 * digits * pow10 (-k).toNat * pow2 (-b.exponent).toNat
  let unit := pow10 k.toNat * pow2 b.exponent.toNat
  let lower := (4 * m - if m = pow2 52 ∧ -1074 < b.exponent then 1 else 2) * unit
  let upper := (4 * m + 2) * unit
  if m % 2 = 0 then lower ≤ value ∧ value ≤ upper else lower < value ∧ value < upper

/-- The nearest multiple of `10 ^ -k` that reads back as the value, if one does. Only the two
neighbours of the value on that grid can. -/
def onGrid? (b : Binary) (k : Int) : Option Nat :=
  let (n, d) := b.scaled k
  let below := n / d
  match b.readsBack below k, b.readsBack (below + 1) k with
  | true, true => some (roundDiv n d)
  | true, false => some below
  | false, true => some (below + 1)
  | false, false => none

/-- Drops the zeros at the end of a numeral, each a power of ten in the exponent. -/
def stripZeros (digits : Nat) (exponent : Int) : Nat × Int :=
  if digits ≠ 0 ∧ digits % 10 = 0 then stripZeros (digits / 10) (exponent + 1)
  else (digits, exponent)
termination_by digits

/-- The value as `digits · 10 ^ exponent` with the fewest digits that read back; seventeen always
do. -/
def shortest (b : Binary) : Nat × Int :=
  if b.significand = 0 then (0, 0)
  else
    let finest (count : Nat) : Int := (count : Int) - 1 - b.magnitude
    let found := (List.range 17).findSome? fun i =>
      (b.onGrid? (finest (i + 1))).map fun digits => (digits, -finest (i + 1))
    let (digits, exponent) := found.getD (b.roundAt (finest 17), -finest 17)
    stripZeros digits exponent

end Binary

namespace Text

def zeros (n : Nat) : String := String.ofList (List.replicate n '0')

def blanks (n : Nat) : String := String.ofList (List.replicate n ' ')

def zeroFilled (width n : Nat) : String :=
  let digits := toString n
  zeros (width - digits.length) ++ digits

/-- A whole number of units of `10 ^ -places` as digits before and digits after the point. -/
def splitPlaces (places n : Nat) : String × String :=
  (toString (n / pow10 places),
    if places = 0 then "" else zeroFilled places (n % pow10 places))

/-- An exponent with its sign and at least `width` digits. -/
def exponentText (width : Nat) (e : Int) : String :=
  (if e < 0 then "-" else "+") ++ zeroFilled width e.natAbs

def nonFinite (x : Float) : String := if x.isNaN then "nan" else if x < 0.0 then "-inf" else "inf"

def minus (b : Binary) : String := if b.negative then "-" else ""

def signed (x : Float) (finite : Binary → String) : String :=
  match Binary.ofFloat? x with
  | some b => minus b ++ finite b
  | none => nonFinite x

def fixed (places : Nat) (x : Float) : String :=
  signed x fun b =>
    let (whole, fraction) := splitPlaces places (b.roundAt places)
    if places = 0 then whole else whole ++ "." ++ fraction

/-- The leading digits of a value, `places` of them after the point, and the exponent of the first
one. -/
def leading (b : Binary) (places : Nat) : Nat × Int :=
  if b.significand = 0 then (0, 0)
  else
    let n := b.roundAt (places - b.magnitude)
    if n < pow10 (places + 1) then (n, b.magnitude) else (n / 10, b.magnitude + 1)

/-- A number as one digit, a set number of places and an exponent of at least two digits. -/
def scientific (places : Nat) (x : Float) : String :=
  signed x fun b =>
    let (n, e) := leading b places
    let (whole, fraction) := splitPlaces places n
    (if places = 0 then whole else whole ++ "." ++ fraction) ++ "e" ++ exponentText 2 e

/-- The fewest digits that read back: with a point and at least one place after it as long as the
value lies from `1e-4` up to below `1e16`, with an exponent beyond. -/
def plain (x : Float) : String :=
  signed x fun b =>
    let (digits, exponent) := b.shortest
    let numeral := toString digits
    let lead := exponent + numeral.length - 1
    if b.significand = 0 then "0.0"
    else if -4 ≤ lead ∧ lead < 16 then
      if 0 ≤ exponent then numeral ++ zeros exponent.toNat ++ ".0"
      else
        let (whole, fraction) := splitPlaces (-exponent).toNat digits
        whole ++ "." ++ fraction
    else
      let fraction := (numeral.drop 1).toString
      (numeral.take 1).toString ++ (if fraction.isEmpty then "" else "." ++ fraction) ++ "e" ++
        exponentText 2 lead

end Text

end Transect
