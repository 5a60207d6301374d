import Transect.Linear.Bidiagonal
import Transect.Linear.Elimination
import Transect.Linear.Inversion

/-!
# The largest and the smallest singular value

A matrix is reduced to two diagonals, and the singular values of these are found by counting: for
any bound, one pass over the squared entries tells how many squared singular values lie below it.
Each is found to a few units of its own last place, however much smaller it is than the largest.
-/
namespace Transect

/-- How many squared singular values lie below a bound, for squared entries of two diagonals by
turns. The pass subtracts the bound from the diagonal and counts the negative pivots; `shift` is
what comes over from the pivot before, the negative bound at first. -/
def countBelow (bound : Float) : Float → List Float → Nat
  | _, [] => 0
  | shift, [q] => if q + shift < 0.0 then 1 else 0
  | shift, q :: e :: rest =>
    let pivot := q + shift
    let ratio := shift / pivot
    let next :=
      if e == 0.0 then -bound else (if ratio.isNaN then 1.0 else ratio) * e - bound
    (if pivot < 0.0 then 1 else 0) + countBelow bound next rest

/-- The largest double that has at most `k` squared singular values below it, which is the one of
rank `k` from below. The bits of a positive double are in the order of its value, and are found one
by one from the highest. -/
def squareOfRank (squares : List Float) (k : Nat) : Float :=
  let fits (bits : UInt64) : Bool :=
    let bound := Float.ofBits bits
    bound.isFinite && countBelow bound (-bound) squares ≤ k
  Float.ofBits ((List.range 63).foldl (fun bits i =>
    let more := bits ||| ((1 : UInt64) <<< (62 - i).toUInt64)
    if fits more then more else bits) 0)

/-- The smallest and the largest singular value of the triangle with diagonal `f`, `h` and `g` above
it. Only ratios of at most one are squared. -/
def triangleExtremes (f g h : Float) : Float × Float :=
  let low := if f.abs < h.abs then f.abs else h.abs
  let high := if f.abs < h.abs then h.abs else f.abs
  let g := g.abs
  if low == 0.0 then (0.0, if high == 0.0 then g else Reflection.overSides high g)
  else
    let sum := 1.0 + low / high
    let difference := (high - low) / high
    if g < high then
      let slope := g / high * (g / high)
      let c := 2.0 / ((sum * sum + slope).sqrt + (difference * difference + slope).sqrt)
      (low * c, high / c)
    else
      let slope := high / g
      if slope == 0.0 then (low * high / g, g)
      else
        let s := sum * slope
        let d := difference * slope
        let c := 1.0 / ((1.0 + s * s).sqrt + (1.0 + d * d).sqrt)
        let half := low * c * slope
        (half + half, g / (c + c))

/-- The diagonal and what is above it, from entries of both by turns. -/
def splitDiagonals : List Float → List Float × List Float
  | d :: e :: rest =>
    let (ds, es) := splitDiagonals rest
    (d :: ds, e :: es)
  | ds => (ds, [])

/-- The exponent of the largest entry for which squares have the widest range. -/
def squaringExponent : Int := 484

/-- The smallest and the largest singular value for entries of two diagonals by turns, the largest
of which has about the binary exponent `squaringExponent`. Those of a diagonal matrix are the
absolute values that it holds. -/
def singularExtremes : List Float → Float × Float
  | [f, g, h] => triangleExtremes f g h
  | entries =>
    let (diagonal, above) := splitDiagonals entries
    let sizes := diagonal.map Float.abs
    if above.all (· == 0.0) then (sizes.foldl min (sizes.headD 0.0), sizes.foldl max 0.0)
    else
      let squares := entries.map fun x => x * x
      ((squareOfRank squares 0).sqrt, (squareOfRank squares (entries.length / 2)).sqrt)

namespace Mat

def largest {m n : Nat} (A : Mat Float m n) : Float :=
  A.foldl (fun m row => row.foldl (fun m x => if m < x.abs then x.abs else m) m) 0.0

/-- The largest singular value divided by the smallest one, infinite where that is undefined. The
matrix is brought to the size that suits squares by a power of two; the singular values are brought
back before they are divided, so that one beyond the largest double is infinite. -/
def condition {n : Nat} (A : Mat Float n n) : Float :=
  let e := A.largest.frExp.2 - squaringExponent
  let scaled : Mat Float n n := A.map fun row => row.map fun x => x.scaleB (-e)
  let (low, high) := singularExtremes scaled.bidiagonal
  let ratio := high.scaleB e / low.scaleB e
  if ratio.isNaN then 1.0 / 0.0 else ratio

end Mat

instance : LinearAlgebra Float where
  condition := Mat.condition
  inverse? {n} A := (FloatTable.ofMat A).inverse?.map (·.toMat n)

end Transect
