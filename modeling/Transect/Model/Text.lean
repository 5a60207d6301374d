import Transect.Model.Basic
import Transect.Text.Table

/-!
# Models as text

A model is shown with its footprint and the number of profiles that it has learned, and with mean
and covariance once there are any.
-/
namespace Transect.ModelM

variable [LinearAlgebra Float]

def text : ModelM Float String := do
  let m ← model
  let head := "nsamples=" ++ toString m.footprint
  let count := "count=" ++ toString m.count
  if !m.isTrained then return "StatisticalProfileModel(" ++ head ++ ", " ++ count ++ ")"
  else
    let d ← derived
    return "StatisticalProfileModel(\n  " ++ head ++ ",\n  " ++ count ++ ",\n  mean=" ++
      Text.vectorText d.mean.toList ++ ",\n  covariance=" ++
      Text.matrixText d.covariance.toLists ++ "\n)"

end Transect.ModelM
