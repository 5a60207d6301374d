import Transect.Geometry
import Transect.Raster

/-!
# Values at positions

A plane is looked up at a position in two ways: at the nearest pixel, or between pixels. Between
pixels, positions are counted in thirty-seconds of a pixel and all arithmetic has single precision.
Outside of the plane the values at its border go on.
-/
namespace Transect

variable {α : Type} [Scalar α]

/-- The place on an axis of `n` pixels that is closest to `i`. -/
def clampIndex (n : Nat) (i : Int) : Nat := (min i (n - 1)).toNat

def saturate (lowest highest i : Int) : Int := max lowest (min i highest)

/-- The nearest whole number of a coordinate in a signed word of `bits` bits. What does not fit, and
what is no number, becomes the lowest one. -/
def wordNearest (bits : Nat) (x : α) : Int :=
  let limit : Int := pow2 (bits - 1)
  match Scalar.roundEven? x with
  | some k => if -limit ≤ k ∧ k < limit then k else -limit
  | none => -limit

/-- The first number of pixels on an axis, and of positions at a time, that is too large for looking
up values between pixels: pixels are counted in signed words of sixteen bits. -/
def lookupLimit : Nat := 32767

def subpixel (x : α) : Int := wordNearest 32 (Scalar.single (Scalar.single x * 32.0))

/-- The pixel that a number of thirty-seconds lies in or follows. -/
def pixelOf (s : Int) : Int := saturate (-32768) 32767 (s / 32)

/-- The fraction of a pixel that a number of thirty-seconds goes beyond it. -/
def fractionOf (s : Int) : α := Scalar.ofInt (s % 32) / 32.0

namespace Plane

def isEmpty (p : Plane α) : Bool := p.height = 0 || p.width = 0

/-- The value at the pixel nearest to a position; of two equally near ones the even one counts. -/
def nearest (p : Plane α) (q : Point α) : α :=
  p.cell (clampIndex p.height (wordNearest 64 q.y)) (clampIndex p.width (wordNearest 64 q.x))

/-- The value at a pixel in single precision; beyond the border the closest pixel counts. -/
def corner (p : Plane α) (row column : Int) : α :=
  Scalar.single (p.cell (clampIndex p.height row) (clampIndex p.width column))

/-- The four pixels around a position, weighted by how close it is to each. -/
def bilinear (p : Plane α) (q : Point α) : α :=
  let single : α → α := Scalar.single
  let sx := subpixel q.x
  let sy := subpixel q.y
  let column := pixelOf sx
  let row := pixelOf sy
  let a : α := fractionOf sx
  let c : α := fractionOf sy
  let weighted (dr dc : Int) (w : α) : α := single (p.corner (row + dr) (column + dc) * w)
  let sum (u v : α) : α := single (u + v)
  sum (sum (sum (weighted 0 0 ((1 - c) * (1 - a))) (weighted 0 1 ((1 - c) * a)))
    (weighted 1 0 (c * (1 - a)))) (weighted 1 1 (c * a))

end Plane

end Transect
