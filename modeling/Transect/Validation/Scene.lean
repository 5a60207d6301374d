import Transect.Raster

/-!
# A synthetic scene

Frames of a soft vertical bar in front of a plain background, in three bands and with sensor noise.
`Noise` replaces a random generator: its draws are not random but follow a linear formula, so that
the same seed always gives the same frames.
-/
namespace Transect.Validation

open Scalar (single)

/-- What replaces a generator. Its `draws`-th draw counts through the remainders of a linear
formula. -/
structure Noise where
  multiplier : Int := 0
  stride : Int := 0
  gain : Float := 1.0
  seed : Int
  draws : Nat := 0

namespace Noise

/-- The `i`-th number of a draw, one of 64 levels. -/
def level (s : Noise) (i : Nat) : Int :=
  ((i : Int) * s.multiplier + s.draws * s.stride + s.seed) % 9973 % 64

/-- The `i`-th number of a draw as a deviation of the given scale around zero. -/
def deviation (s : Noise) (scale : Float) (i : Nat) : Float :=
  scale * (s.gain * (Float.ofInt (2 * s.level i - 63) / 64.0))

/-- The first number of a draw as a share of the way between two bounds. -/
def between (s : Noise) (low high : Float) : Float :=
  low + (high - low) * (Float.ofInt (2 * s.level 0 + 1) / 128.0)

def next (s : Noise) : Noise := { s with draws := s.draws + 1 }

end Noise

/-- An image of three bands with values from 0 to 255. -/
structure Frame where
  height : Nat
  width : Nat
  pixels : ByteArray

namespace Frame

def bands : Nat := 3

def pixel (f : Frame) (row column band : Nat) : UInt8 :=
  f.pixels.get! ((row * f.width + column) * bands + band)

def raster (f : Frame) : Raster Float where
  extents := [f.height, f.width, bands]
  cell
    | [row, column, band] => (f.pixel row column band).toNat.toFloat
    | _ => 0.0

def dark (height width : Nat) : Frame :=
  ⟨height, width, ⟨Array.replicate (height * width * bands) 0⟩⟩

end Frame

/-- A number kept between two bounds; an undefined one stays undefined. -/
def clip (low high x : Float) : Float := if x < low then low else if high < x then high else x

/-- How much of the bar covers a column: a plateau seven columns wide, with ramps of one column. -/
def coverage (barX : Float) (column : Nat) : Float :=
  clip 0.0 1.0 (single (4.0 - (single (column.toFloat - single barX)).abs))

def tones : List (Float × Float) := [(40.0, 30.0), (40.0, 90.0), (40.0, 220.0)]

/-- The place on an axis of `n` pixels that a place beyond its ends is reflected to; the pixel at
the end is not repeated. -/
def reflected (n : Nat) (i : Int) : Nat :=
  if n ≤ 1 then 0
  else
    let period : Int := 2 * (n - 1)
    let j := i % period
    (if j < n then j else period - j).toNat

/-- The weights of a smoothing over five pixels, a normal curve of width one. -/
def smoothing : List (Int × Float) :=
  let offsets : List Int := [-2, -1, 0, 1, 2]
  let weight (d : Int) : Float := Float.exp (-(Float.ofInt (d * d)) / 2.0)
  let total := (offsets.map weight).foldl (· + ·) 0.0
  offsets.map fun d => (d, weight d / total)

def smoothed (row : FloatArray) : FloatArray :=
  let value (i : Nat) : Float :=
    smoothing.foldl (fun acc (d, w) => acc + w * row.get! (reflected row.size (i + d))) 0.0
  (List.range row.size).foldl (fun out i => out.push (single (value i)))
    (FloatArray.emptyWithCapacity row.size)

/-- One band of the bar along a row, smoothed. All rows of a band are equal, so smoothing down the
columns would change nothing. -/
def barRow (barX : Float) (width : Nat) (tone : Float × Float) : FloatArray :=
  smoothed ((List.range width).foldl (fun row column =>
    row.push (single (tone.1 + single ((tone.2 - tone.1) * coverage barX column))))
    (FloatArray.emptyWithCapacity width))

/-- A frame with the bar centred at column `barX`, and the noise source after it. The noise is added
in single precision, and what leaves the range of a pixel is cut off. -/
def barFrame (noise : Noise) (barX : Float) (height width : Nat) :
    Except (Failure Float) (Frame × Noise) :=
  if height = 0 ∨ width = 0 then .error .nothingToResample
  else
    let rows := (tones.map (barRow barX width)).toArray
    let size := height * width * Frame.bands
    let pixels := Fin.foldl size (fun pixels k =>
      let row := rows.getD (k.val % Frame.bands) FloatArray.empty
      let tone := row.get! (k.val / Frame.bands % width)
      let value := single (tone + single (noise.deviation 2.0 k.val))
      pixels.push (clip 0.0 255.0 value).toUInt8) (ByteArray.emptyWithCapacity size)
    .ok (⟨height, width, pixels⟩, noise.next)

end Transect.Validation
