/-!
# The exact value of a double

A finite double is a sign, a whole significand and a power of two. Whatever this library rounds,
prints or measures exactly goes through that triple and whole-number arithmetic, and comes back
through `nearest`, which rounds a quotient of whole numbers to the nearest double.
-/
namespace Transect

abbrev pow2 (n : Nat) : Nat := Nat.pow 2 n

abbrev pow10 (n : Nat) : Nat := Nat.pow 10 n

/-- The value `± significand · 2 ^ exponent`. -/
structure Binary where
  negative : Bool
  significand : Nat
  exponent : Int
  deriving Repr, DecidableEq

namespace Binary

/-- The whole number nearest `n / d`; a tie goes to the even neighbour. -/
def roundDiv (n d : Nat) : Nat :=
  let q := n / d
  let twice := 2 * (n % d)
  if twice < d then q else if d < twice then q + 1 else q + q % 2

/-- The exact value of a finite double, and nothing for an infinity or an undefined value. A zero
exponent field marks the values without a leading bit. -/
def ofFloat? (x : Float) : Option Binary :=
  let bits := x.toBits.toNat
  let field := bits / pow2 52 % pow2 11
  let fraction := bits % pow2 52
  if field = 2047 then none
  else some
    { negative := bits / pow2 63 = 1
      significand := if field = 0 then fraction else pow2 52 + fraction
      exponent := (max field 1 : Nat) - 1075 }

/-- The absolute value times `10 ^ k`, as a numerator and a denominator. -/
def scaled (b : Binary) (k : Int) : Nat × Nat :=
  (b.significand * pow2 b.exponent.toNat * pow10 k.toNat,
    pow2 (-b.exponent).toNat * pow10 (-k).toNat)

/-- The absolute value in units of `10 ^ -k`, rounded to the nearest whole number of them. -/
def roundAt (b : Binary) (k : Int) : Nat :=
  let (n, d) := b.scaled k
  roundDiv n d

def digitCount (n : Nat) : Nat := (Nat.toDigits 10 n).length

/-- The decimal exponent of the leading digit of `n / d`, for positive `n` and `d`: the two digit
counts give it up to one, and one comparison decides. -/
def leadingExponent (n d : Nat) : Int :=
  let shift : Int := (digitCount n : Int) - digitCount d
  if d * pow10 shift.toNat ≤ n * pow10 (-shift).toNat then shift else shift - 1

/-- The decimal exponent of the leading digit of a value other than zero. -/
def magnitude (b : Binary) : Int :=
  let (n, d) := b.scaled 0
  leadingExponent n d

/-- The value rounded to a whole number; a tie goes to the even neighbour. -/
def toInt (b : Binary) : Int :=
  let n := b.roundAt 0
  if b.negative then -(n : Int) else n

/-- The double nearest `n / d`, for positive `d`; a tie goes to the even significand. The
significand is cut where its exponent reaches the smallest one, and a value past the largest double
is infinite. -/
def nearest (n d : Nat) : Float :=
  if n = 0 then 0.0
  else
    let exponent : Int := max ((n.log2 : Int) - d.log2 - 53) (-1074)
    let whole (e : Int) : Nat := roundDiv (n * pow2 (-e).toNat) (d * pow2 e.toNat)
    let exponent := if whole exponent < pow2 53 then exponent else exponent + 1
    (Float.ofNat (whole exponent)).scaleB exponent

def nearestDecimal (n : Nat) (k : Int) : Float := nearest (n * pow10 k.toNat) (pow10 (-k).toNat)

/-- One descent of Newton's iteration from above towards the root of `n`. -/
def rootFrom (n x : Nat) : Nat :=
  let y := (x + n / x) / 2
  if y < x then rootFrom n y else x
termination_by x

def root (n : Nat) : Nat := if n = 0 then 0 else rootFrom n (pow2 (n.log2 / 2 + 1))

/-- The double nearest the square root of `n · 4 ^ e`. The root is taken with enough bits to spare,
and one more bit keeps whether it was cut. -/
def nearestRoot (n : Nat) (e : Int) : Float :=
  let spare := (130 - n.log2) / 2
  let square := n * pow2 (2 * spare)
  let r := root square
  let kept := if r * r = square then 2 * r else 2 * r + 1
  let exponent := e - spare - 1
  nearest (kept * pow2 exponent.toNat) (pow2 (-exponent).toNat)

/-- The double nearest the length of the hypotenuse over two finite sides: nothing overflows or
vanishes on the way. -/
def hypotenuse (a b : Binary) : Float :=
  let e := min a.exponent b.exponent
  let x := a.significand * pow2 (a.exponent - e).toNat
  let y := b.significand * pow2 (b.exponent - e).toNat
  nearestRoot (x * x + y * y) e

end Binary

end Transect
