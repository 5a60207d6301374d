import Transect.Scalar
import Transect.Strategy

/-!
# What can go wrong

Every refusal of this library is one of these causes. The first group are requests it turns down by
its own rules; the second are arrays on which an operation has no result.
-/
namespace Transect

inductive Failure (α : Type) where
  | countBelowOne (count : Int)
  | footprintBelowOne (samples : Int)
  | iterationsBelowOne (limit : Int)
  | bandNotPlanar (extents : List Nat)
  | imageNotPlanar (extents : List Nat)
  | windowNotPlanar (extents : List Nat)
  | windowTooShort (length footprint : Nat)
  | unknownStrategy (given : Setting)
  | notSingleBand (index : Int)
  | dimensionMismatch (expected actual : Nat)
  /-- Samples whose sum is zero, infinite or undefined. -/
  | degenerateProfile (total : α) (length : Nat)
  | notTrained
  | noPixels
  /-- A raster without pixels was to be interpolated or smoothed. -/
  | nothingToResample
  /-- More pixels on an axis, or more positions at a time, than values can be looked up for. -/
  | tooLargeToResample (extent : Nat)
  | bandOutOfRange (index : Int) (extents : List Nat)
  | noBands
  | unevenBands
  /-- The centred offset lies outside of the scored ones. -/
  | centreNotScored (offset : Int) (scored : Nat)
  | noStep
  | noRows
  /-- The condition number of an array that is no matrix, or of a matrix without elements. -/
  | conditionUndefined
  | conditionAmbiguous

/-- The extents of an array between parentheses; a single one is followed by a comma. -/
def extentsText : List Nat → String
  | [n] => "(" ++ toString n ++ ",)"
  | extents => "(" ++ ", ".intercalate (extents.map toString) ++ ")"

namespace Failure

def message : Failure Float → String
  | countBelowOne count => "count must be >= 1, got " ++ toString count
  | footprintBelowOne samples => "nsamples must be >= 1, got " ++ toString samples
  | iterationsBelowOne limit => "max_iterations must be >= 1, got " ++ toString limit
  | bandNotPlanar extents =>
    "band must be a 2D single-band raster, got shape " ++ extentsText extents
  | imageNotPlanar extents => "image must be (H, W) or (H, W, C), got shape " ++ extentsText extents
  | windowNotPlanar extents =>
    "per_band_window must be (num_bands, L), got shape " ++ extentsText extents
  | windowTooShort length footprint =>
    "Window of " ++ toString length ++ " samples is shorter than the model footprint (" ++
      toString footprint ++ ")"
  | unknownStrategy given =>
    "Unknown sampling strategy: " ++ given.literal ++ " (expected one of: " ++
      ", ".intercalate (Strategy.all.map Strategy.name) ++ ")"
  | notSingleBand index =>
    "band index " ++ toString index ++ " out of range for single-band image"
  | dimensionMismatch expected actual =>
    "Dimension mismatch: expected length " ++ toString expected ++ ", got " ++ toString actual
  | degenerateProfile total length =>
    "Cannot normalize profile with sum " ++ Text.plain total ++ " (length " ++ toString length ++
      ")"
  | notTrained => "No observations have been added"
  | noPixels => "the raster has no pixels"
  | nothingToResample => "there are no pixels to resample"
  | tooLargeToResample extent => "an extent of " ++ toString extent ++ " is too large to resample"
  | bandOutOfRange index extents =>
    "no band " ++ toString index ++ " in an array of shape " ++ extentsText extents
  | noBands => "the image has no bands"
  | unevenBands => "the bands have different numbers of samples"
  | centreNotScored offset scored =>
    "offset " ++ toString offset ++ " is not among " ++ toString scored ++ " scores"
  | noStep => "a line of one sample has no step"
  | noRows => "an array without axes has no rows"
  | conditionUndefined => "the condition number is undefined"
  | conditionAmbiguous => "several matrices have no single condition number"

end Failure

end Transect
